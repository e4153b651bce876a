import Wireform.Document.Field
import Wireform.Schema.Definition

/-!
# Faults of registry documents

What may be wrong with a document of named definitions, and where. A fault inside a definition carries the
way from the name of the definition to the part that breaks a rule.
-/
namespace Wireform.Registry

inductive Step
  | combinator (c : Combinator)
  | key (text : String)
  | index (i : Nat)
deriving DecidableEq

def Step.text : Step → String
  | combinator c => "." ++ c.name
  | key text => "." ++ text
  | index i => "[" ++ toString i ++ "]"

/-- A part of a named definition. -/
structure Location where
  name : String
  steps : List Step
deriving DecidableEq

def Location.text (l : Location) : String :=
  l.name ++ String.join (l.steps.map Step.text)

def Location.step (l : Location) (s : Step) : Location :=
  { l with steps := l.steps ++ [s] }

inductive Reason
  | unknownName (name : String)
  | unknownCombinator (key : String)
  | notDefinition (found : String)
  | fieldsNotMap
  | positionsNotList
  | membersNotCollection
  | branchesNotMap
  | definition (fault : DefinitionFault)
deriving DecidableEq

def Reason.message : Reason → String
  | unknownName name => "unknown schema name " ++ Text.quote name
  | unknownCombinator key => "unknown combinator " ++ key
  | notDefinition found => "definition must be a name or a single-key mapping, got " ++ found
  | fieldsNotMap => "fields must be a mapping"
  | positionsNotList => "positions must be a list"
  | membersNotCollection => "members must be a list or mapping"
  | branchesNotMap => "branches must be a mapping of tag to schema"
  | definition fault => fault.message

inductive LoadFault
  /-- The document is no map from texts. -/
  | notFields
  | malformed (complaints : List Document.Complaint)
  | shadowing (names : List String)
  /-- Names each of which refers to the next one, the last being the first again. -/
  | cyclic (names : List String)
  | broken (location : Location) (reason : Reason)
  /-- A text that is needed would hold an integer with too many digits. -/
  | numberTooLong
deriving DecidableEq

/-- The text of a fault; what is wrong with single fields is left to the complaints. -/
def LoadFault.message : LoadFault → String
  | notFields => "malformed schema registry"
  | malformed _ => "malformed schema registry"
  | shadowing names => "schema names shadow scalar schemas: " ++ Text.quoteList names
  | cyclic names => "cyclic schema reference: " ++ " -> ".intercalate names
  | broken location reason => location.text ++ ": " ++ reason.message
  | numberTooLong => "number too long"

end Wireform.Registry
