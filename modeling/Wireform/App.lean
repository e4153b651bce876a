import Wireform.Log.Logger
import Wireform.Registry.Basic
import Wireform.Settings.Attempt

/-!
# Applications

A registry as an application gets it: the settings are read, the package logger is configured from them, and
the registry that they name is loaded. Settings with a fault leave the logger as it was.

The start once more by operations that raise, in the order of its steps: the settings are read, the package logger
loses its handlers, takes a level and a new handler, and the registry is loaded. A step that raises ends the
start, and what was changed before stays changed.
-/
namespace Wireform.App

inductive Fault
  | settings (fault : Settings.Fault)
  | registry (fault : Registry.FileFault)

/-- The outcome of a start: a registry or a fault, the logger from then on, and what was reported. -/
structure Start (ι : Type) where
  result : Except Fault Registry
  logger : Log.Logger ι
  log : List Log.Record

/-- Starts an application from the settings at a path. The registry's path starts at the directory of the
settings; the log goes to the given stream. -/
def start {ι : Type} (files : String → Document.File) (directory path word : String)
    (environment : Settings.Environment) (stream : ι) (logger : Log.Logger ι) : Start ι :=
  match Settings.load path (files path) word environment with
  | .error fault => ⟨.error (.settings fault), logger, []⟩
  | .ok s =>
    let schemas := s.schemasPath directory
    let (result, log) := Registry.ofFile s.maxDepth schemas (files schemas)
    ⟨result.mapError .registry, logger.configure s.level.number s.logFormat stream, log⟩

/-! ### Operations that raise -/

inductive Raised
  | settings (e : Settings.Raised)
  | operation (kind : FaultKind)
  | registry (fault : Registry.FileFault)

/-- What a start changes: the package logger, and what has been reported. -/
structure World (ι : Type) where
  logger : Log.Logger ι
  log : List Log.Record

abbrev Starting (ι : Type) := ExceptT Raised (StateM (World ι))

variable {ι : Type}

def changeLogger (f : Log.Logger ι → Log.Logger ι) : Starting ι Unit :=
  modify fun w => { w with logger := f w.logger }

/-- Gives the package logger a level, which is a number or the name of a level. -/
def setLevel : Int ⊕ String → Starting ι Unit
  | .inl n => changeLogger (·.setLevel n)
  | .inr name =>
    match Settings.levelNumbers.lookup name with
    | some n => changeLogger (·.setLevel n)
    | none => throw (.operation .value)

def configureLogging (level : Int ⊕ String) (jsonFormat : Bool) (stream : ι) : Starting ι Unit := do
  changeLogger (·.removeHandlers)
  setLevel level
  changeLogger (·.attach ⟨stream, if jsonFormat then .json else .plain⟩)

def loadRegistry (maxDepth : Option Int) (path : String) (file : Document.File) : Starting ι Registry := do
  let (result, log) := Registry.ofFile maxDepth path file
  modify fun w => { w with log := w.log ++ log }
  match result with
  | .ok r => return r
  | .error fault => throw (.registry fault)

/-- The registry of an application, from the settings of a source that stands for the file at a path. -/
def create (files : String → Document.File) (directory path word : String)
    (source : Except Document.FileFault Document.Shared) (environment : Settings.Environment) (stream : ι) :
    Starting ι Registry := do
  match Settings.Facade.load path source word environment with
  | .error e => throw (.settings e)
  | .ok facade =>
    configureLogging facade.logLevel facade.jsonFormat stream
    loadRegistry facade.maxDepth (facade.schemasPath directory) (files (facade.schemasPath directory))

end Wireform.App
