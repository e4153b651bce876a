import Wireform.Log.Format

/-!
# The package logger

The logger above all loggers of this library. It has a level and handlers, each of which writes to one
stream in one format. To configure it is to take away its handlers one by one, and to give it a level and
a new handler. Only records of loggers at or below it come to its handlers, and only those that reach its
level. A logger stands below the one with the longest name that its own name continues, among those that
are known.
-/
namespace Wireform.Log

/-- Writes records to a stream in a format. -/
structure Handler (ι : Type) where
  stream : ι
  format : Format

/-- The package logger, and the names of the loggers that are known. A level of zero stands for none of its
own. Two handlers with the same stream and format are told apart by their numbers. -/
structure Logger (ι : Type) where
  level : Int
  attached : List (Nat × Handler ι)
  /-- How many handlers have been made. -/
  made : Nat
  names : List String

structure Output (ι : Type) where
  stream : ι
  text : String

/-- The names that a name continues with a dot, the longest one first. The name is given with its last
character first. A dot right before one at which the name was cut is passed over. -/
def beginnings : List Char → List String
  | '.' :: c :: rest => String.ofList (c :: rest).reverse :: beginnings rest
  | _ :: rest => beginnings rest
  | [] => []

/-- The known logger that a name stands below. -/
def parent? (names : List String) (name : String) : Option String :=
  (beginnings name.toList.reverse).find? names.contains

/-- Whether a name is that of the package logger or of a logger below it, at most the given number of steps
below. -/
def isOfPackage (names : List String) : Nat → String → Bool
  | 0, _ => false
  | more + 1, name =>
    name == packageLogger ||
      match parent? names name with
      | some parent => isOfPackage names more parent
      | none => false

namespace Logger

variable {ι : Type}

/-- The package logger before anything is configured. -/
def fresh : Logger ι :=
  ⟨0, [], 0, [packageLogger, registryLogger, unionsLogger]⟩

def handlers (l : Logger ι) : List (Handler ι) :=
  l.attached.map Prod.snd

/-- Takes away the handler with a number, if it is there. -/
def removeHandler (l : Logger ι) (number : Nat) : Logger ι :=
  { l with attached := l.attached.eraseP fun a => a.1 == number }

/-- Takes away all handlers, by a loop over a copy of the list. -/
def removeHandlers (l : Logger ι) : Logger ι :=
  (l.attached.map Prod.fst).foldl removeHandler l

def setLevel (level : Int) (l : Logger ι) : Logger ι :=
  { l with level := level }

/-- Adds a handler at the end, unless it is there already. -/
def addHandler (number : Nat) (h : Handler ι) (l : Logger ι) : Logger ι :=
  if l.attached.any fun a => a.1 == number then l else { l with attached := l.attached ++ [(number, h)] }

/-- Makes a handler and adds it. -/
def attach (h : Handler ι) (l : Logger ι) : Logger ι :=
  { l with made := l.made + 1 }.addHandler l.made h

def configure (level : Int) (format : Format) (stream : ι) (l : Logger ι) : Logger ι :=
  (l.removeHandlers.setLevel level).attach ⟨stream, format⟩

def know (name : String) (l : Logger ι) : Logger ι :=
  if l.names.contains name then l else { l with names := name :: l.names }

/-- The level that records have to reach: its own, or that of a warning. -/
def threshold (l : Logger ι) : Int :=
  if l.level = 0 then warning else l.level

/-- Whether a record comes to the handlers. Levels up to zero never do. -/
def accepts (l : Logger ι) (r : Record) : Bool :=
  isOfPackage l.names (r.logger.length + 1) r.logger && decide (0 < r.level ∧ l.threshold ≤ r.level)

/-- What the handlers write for a record. -/
def write (l : Logger ι) (clock : String) (r : Record) : List (Output ι) :=
  if l.accepts r then l.handlers.map fun h => ⟨h.stream, r.line h.format clock⟩ else []

end Logger

/-- What happens to the package logger. -/
inductive Event (ι : Type)
  | configure (level : Int) (format : Format) (stream : ι)
  /-- A logger is asked for by name. -/
  | know (name : String)
  /-- A record is made at a time of the clock. -/
  | log (clock : String) (r : Record)

namespace Logger

variable {ι : Type}

/-- The logger after an event, and what its handlers wrote. The logger of a record is known from then on. -/
def step (l : Logger ι) : Event ι → Logger ι × List (Output ι)
  | .configure level format stream => (l.configure level format stream, [])
  | .know name => (l.know name, [])
  | .log clock r => (l.know r.logger, (l.know r.logger).write clock r)

/-- The logger after a run of events, and what was written at each of them. -/
def run (l : Logger ι) : List (Event ι) → Logger ι × List (List (Output ι))
  | [] => (l, [])
  | e :: events =>
    let (m, outputs) := l.step e
    let (last, rest) := m.run events
    (last, outputs :: rest)

end Logger

def textOn {ι : Type} [DecidableEq ι] (stream : ι) (outputs : List (Output ι)) : String :=
  String.join ((outputs.filter fun o => o.stream = stream).map (·.text))

end Wireform.Log
