import Wireform.Attempt
import Wireform.Settings.Basic

/-!
# Settings by operations that raise

Reading settings once more, taken down to the checks and the operations that raise. A field is converted and
then checked, and what a check refuses is one of the complaints about the document. Complaints are raised
together; a document with keys that are no texts raises another error. A handler makes the settings' own error
of these two. The level is kept as a text, and its number is looked up where it is asked for.
-/
namespace Wireform.Settings

open Document (Cause Complaint)

inductive Raised
  /-- The settings' own error. -/
  | own (fault : Fault)
  /-- The error of the fields of a document. -/
  | fields (complaints : List Complaint)
  | operation (kind : FaultKind)
  /-- The error of a file that cannot be read. -/
  | file (fault : Document.FileFault)

/-- Settings as they are handed on. Nothing is promised of the level but that it is a text. -/
structure Facade where
  version : Int
  maxDepth : Option Int
  level : String
  jsonFormat : Bool
  schemasFile : String

/-! ### Fields and their checks -/

/-- An integer, or none. -/
def optionalInt : Value → Except Cause (Option Int)
  | .null => .ok none
  | v => (Document.int v).map some

def checkPositive : Option Int → Except Cause (Option Int)
  | none => .ok none
  | some n =>
    if n < 1 then
      .error <| .refused <|
        match Numeral.decimal? n with
        | some text => "max_depth must be a positive integer, got " ++ text
        | none => tooManyDigits
    else .ok (some n)

/-- The names of levels that settings may have, in order. -/
def allowedLevels : List String :=
  ["CRITICAL", "DEBUG", "ERROR", "INFO", "WARNING"]

/-- A level in capital letters. -/
def checkLevel (name : String) : Except Cause String :=
  let level := name.map Level.capital
  if level ∈ allowedLevels then .ok level
  else
    .error <| .refused <|
      "level must be one of " ++ Text.quoteList allowedLevels ++ ", got " ++ Text.quote name

/-- The settings of a document's entries. All complaints are raised together. -/
def fieldsOf (entries : List (Value × Value)) : Except Raised Facade :=
  let (version, a) := readVersion entries
  let (decode, b) := sectionOf "decode" entries
  let (maxDepth, c) := field (fun v => optionalInt v >>= checkPositive) none ["decode", "max_depth"] decode
  let (logging, d) := sectionOf "logging" entries
  let (level, e) := field (fun v => Document.text v >>= checkLevel) "WARNING" ["logging", "level"] logging
  let (jsonFormat, f) := field Document.bool false ["logging", "json_format"] logging
  let (registry, g) := sectionOf "registry" entries
  let (schemasFile, h) := field Document.text "schemas.yaml" ["registry", "schemas_yaml"] registry
  match a ++ b ++ c ++ d ++ e ++ f ++ g ++ h with
  | [] => .ok ⟨version, maxDepth, level, jsonFormat, schemasFile⟩
  | complaints => .error (.fields complaints)

/-- The entries are handed over by name, so every key has to be a text. -/
def construct (entries : List (Value × Value)) : Except Raised Facade :=
  if !(Document.badKeys entries).isEmpty then .error (.operation .type) else fieldsOf entries

/-- The handler around the construction of settings. -/
def handling (path : String) : Raised → Raised
  | .operation .type => .own (.notFields path)
  | .fields complaints => .own (.invalid path complaints)
  | e => e

/-- The settings of a source: a document, or what is wrong with the file that it should stand in. -/
def Facade.load (path : String) (source : Except Document.FileFault Document.Shared) (word : String)
    (environment : Environment) : Except Raised Facade :=
  match source with
  | .error .missing => .error (.own (.unread path .missing))
  | .error fault => .error (.file fault)
  | .ok document =>
    match (override word environment document).value with
    | .map entries => (construct entries).mapError (handling path)
    | _ => .error (.own (.notMap path))

/-! ### Numbers of levels -/

def levelNumbers : List (String × Int) :=
  [("CRITICAL", 50), ("FATAL", 50), ("ERROR", 40), ("WARN", 30), ("WARNING", 30), ("INFO", 20),
    ("DEBUG", 10), ("NOTSET", 0)]

/-- The number of the level of a name. A name without a level gives a text. -/
def levelNumber (name : String) : Int ⊕ String :=
  match levelNumbers.lookup name with
  | some n => .inl n
  | none => .inr ("Level " ++ name)

namespace Facade

def logLevel (f : Facade) : Int ⊕ String :=
  levelNumber f.level

/-- The path of the registry, next to the settings unless it is absolute. -/
def schemasPath (f : Facade) (directory : String) : String :=
  Path.below directory f.schemasFile

end Facade

end Wireform.Settings
