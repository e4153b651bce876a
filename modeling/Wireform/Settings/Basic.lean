import Wireform.Document.Field
import Wireform.Yaml.Value
import Wireform.Log.Format
import Wireform.Settings.Override

/-!
# Settings

The settings of an application: a version, the bound on the depth of decoded values, how to log, and where
the registry lies. They come from a document, changed by overrides, and are checked field by field; all
complaints are reported together, in the order of the fields.

The path of a file may start at a directory. Single points and superfluous slashes vanish, double points stay, and
an absolute path stands for itself; just two slashes in front of one are kept.
-/
namespace Wireform.Settings.Path

/-- The parts of a path that count. -/
def parts (path : String) : List String :=
  (path.splitOn "/").filter fun part => part != "" && part != "."

/-- What an absolute path begins with; nothing for a relative one. -/
def root (path : String) : String :=
  match path.toList with
  | '/' :: '/' :: '/' :: _ => "/"
  | '/' :: '/' :: _ => "//"
  | '/' :: _ => "/"
  | _ => ""

def below (directory path : String) : String :=
  let rest := "/".intercalate (parts path)
  if root path ≠ "" then root path ++ rest
  else if rest = "" then directory
  else directory ++ "/" ++ rest

end Wireform.Settings.Path

namespace Wireform

inductive Level
  | debug
  | info
  | warning
  | error
  | critical
deriving DecidableEq

namespace Level

def number : Level → Int
  | debug => Log.debug
  | info => Log.info
  | warning => Log.warning
  | error => Log.error
  | critical => Log.critical

def name (l : Level) : String :=
  Log.levelName l.number

def all : List Level := [critical, debug, error, info, warning]

/-- A capital letter; of the letters past ASCII only the dotless i has one that a level's name uses. -/
def capital (c : Char) : Char :=
  if c = 'ı' then 'I' else c.toUpper

/-- The level of a name in letters of any size. -/
def ofName? (name : String) : Option Level :=
  all.find? fun l => l.name == name.map capital

end Level

structure Settings where
  version : Int
  maxDepth : Option Int
  level : Level
  jsonFormat : Bool
  schemasFile : String

namespace Settings

open Document (Cause Complaint)

def tooManyDigits : String :=
  "Exceeds the limit (4300 digits) for integer string conversion; " ++
    "use sys.set_int_max_str_digits() to increase the limit"

/-- A bound on depth: none, or a positive number. -/
def readDepth : Value → Except Cause (Option Int)
  | .null => .ok none
  | v =>
    match Document.int v with
    | .error cause => .error cause
    | .ok n =>
      if 1 ≤ n then .ok (some n)
      else
        .error <| .refused <|
          match Numeral.decimal? n with
          | some text => "max_depth must be a positive integer, got " ++ text
          | none => tooManyDigits

def readLevel (v : Value) : Except Cause Level :=
  match Document.text v with
  | .error cause => .error cause
  | .ok name =>
    match Level.ofName? name with
    | some level => .ok level
    | none =>
      .error <| .refused <|
        "level must be one of " ++ Text.quoteList (Level.all.map Level.name) ++ ", got " ++
          Text.quote name

/-- What was read so far, with the complaints. -/
abbrev Checked (α : Type) := α × List Complaint

/-- Reads a field; a field that is absent has its usual value. -/
def field {α : Type} (read : Value → Except Cause α) (usual : α) (place : List String)
    (entries : List (Value × Value)) : Checked α :=
  match place.getLast? with
  | none => (usual, [])
  | some name =>
    match Value.get? name entries with
    | none => (usual, [])
    | some v =>
      match read v with
      | .ok a => (a, [])
      | .error cause => (usual, [⟨cause, place.map .name⟩])

/-- The entries of a section; a section that is absent has none. -/
def sectionOf (name : String) (entries : List (Value × Value)) : Checked (List (Value × Value)) :=
  match Value.get? name entries with
  | none => ([], [])
  | some (.map inner) => (inner, [])
  | some _ => ([], [⟨.notSection, [.name name]⟩])

/-- The version, which has to be there. -/
def readVersion (entries : List (Value × Value)) : Checked Int :=
  match Value.get? "version" entries with
  | none => (0, [⟨.missing, [.name "version"]⟩])
  | some v =>
    match Document.int v with
    | .ok n => (n, [])
    | .error cause => (0, [⟨cause, [.name "version"]⟩])

/-- The settings of a document's entries, or all complaints about them. -/
def ofEntries (entries : List (Value × Value)) : Except (List Complaint) Settings :=
  let (version, a) := readVersion entries
  let (decode, b) := sectionOf "decode" entries
  let (maxDepth, c) := field readDepth none ["decode", "max_depth"] decode
  let (logging, d) := sectionOf "logging" entries
  let (level, e) := field readLevel .warning ["logging", "level"] logging
  let (jsonFormat, f) := field Document.bool false ["logging", "json_format"] logging
  let (registry, g) := sectionOf "registry" entries
  let (schemasFile, h) := field Document.text "schemas.yaml" ["registry", "schemas_yaml"] registry
  match a ++ b ++ c ++ d ++ e ++ f ++ g ++ h with
  | [] => .ok ⟨version, maxDepth, level, jsonFormat, schemasFile⟩
  | complaints => .error complaints

inductive Fault
  | unread (path : String) (fault : Document.FileFault)
  | notMap (path : String)
  /-- A key of the document is no text. -/
  | notFields (path : String)
  | invalid (path : String) (complaints : List Complaint)

/-- The text of a fault; for an unread file, that it is missing. What is wrong with single fields is left
to the complaints. -/
def Fault.message : Fault → String
  | unread path _ => "Settings file not found: " ++ path
  | notMap path => "Settings file must contain a mapping: " ++ path
  | notFields path => "Invalid settings in " ++ path
  | invalid path _ => "Invalid settings in " ++ path

def ofDocument (path : String) (document : Value) : Except Fault Settings :=
  match document with
  | .map entries =>
    if !(Document.badKeys entries).isEmpty then .error (.notFields path)
    else (ofEntries entries).mapError (.invalid path)
  | _ => .error (.notMap path)

def load (path : String) (file : Document.File) (word : String) (environment : Environment) :
    Except Fault Settings :=
  match file.document with
  | .error fault => .error (.unread path fault)
  | .ok document => ofDocument path (override word environment document).value

/-- The path of the registry, next to the settings unless it is absolute. -/
def schemasPath (s : Settings) (directory : String) : String :=
  Path.below directory s.schemasFile

def logFormat (s : Settings) : Log.Format :=
  if s.jsonFormat then .json else .plain

end Settings
end Wireform
