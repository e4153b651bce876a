import Wireform.Value.Basic
import Wireform.Registry.Fault

/-!
# Resolving definitions

Turns the named definitions of a document into schemas. A definition is the name of a scalar or of another
definition, or a combinator with its argument. Names are resolved where they are first used and only once;
a name that is met again while it is being resolved makes a cycle. The recursion ends because every
reference leads to a name that is not in progress yet.
-/
namespace Wireform.Registry

/-- What has been resolved so far and what has been reported. -/
structure Progress where
  built : List (String × Schema)
  log : List Log.Record

/-- A step of resolving: it may fail, and it adds to the progress. -/
abbrev Resolve := ExceptT LoadFault (StateM Progress)

def checked {α : Type} (location : Location) (x : Except BuildFault α) : Resolve α :=
  match x with
  | .ok a => return a
  | .error (.definition fault) => throw (.broken location (.definition fault))
  | .error _ => throw .numberTooLong

def needed (text : Option String) : Resolve String :=
  match text with
  | some s => return s
  | none => throw .numberTooLong

def report (records : List Log.Record) : Resolve Unit :=
  modify fun progress => { progress with log := progress.log ++ records }

def combinator (location : Location) : Value → Resolve Combinator
  | .str name =>
    match Combinator.ofName? name with
    | some c => return c
    | none => throw (.broken location (.unknownCombinator (Text.quote name)))
  | key => do throw (.broken location (.unknownCombinator (← needed key.written?)))

/-- How references are resolved: the place of the reference, and its name. -/
abbrev Lookup := Location → String → Resolve Schema

/-- The members that an argument lists, or the keys of one that is a map. -/
def membersOf (location inside : Location) : Value → Resolve (List String)
  | .list items => checked location (Schema.requireMembers (.value (.list items)))
  | .map entries => checked location (Schema.requireMembers (.value (.map entries)))
  | _ => throw (.broken inside .membersNotCollection)

mutual

def build (reference : Lookup) (location : Location) : Value → Resolve Schema
  | .str name =>
    match Scalar.ofName? name with
    | some kind => return .scalar kind
    | none => reference location name
  | .map [(key, argument)] => do
    let c ← combinator location key
    let inside := location.step (.combinator c)
    match c with
    | .optional => return .optional (← build reference inside argument)
    | .nullable => return .nullable (← build reference inside argument)
    | .array => return .array (← build reference inside argument)
    | .object => return .object (← fieldsOf reference inside argument)
    | .partialObject => return Schema.partialObject (← fieldsOf reference inside argument)
    | .tuple => return .tuple (← positionsOf reference inside argument)
    | .oneOf => return .oneOf (← membersOf location inside argument)
    | .variant => do
      let branches ← branchesOf reference location inside argument
      let s ← checked location (Schema.variantOf Schema.defaultDiscriminant branches)
      report (Schema.tagWarnings (branches.map (·.1)))
      return s
  | v => do throw (.broken location (.notDefinition (← needed v.written?)))

def fieldsOf (reference : Lookup) (inside : Location) : Value → Resolve (List (String × Schema))
  | .map entries => buildFields reference inside [] entries
  | _ => throw (.broken inside .fieldsNotMap)

def positionsOf (reference : Lookup) (inside : Location) : Value → Resolve (List Schema)
  | .list items => buildPositions reference inside 0 items
  | _ => throw (.broken inside .positionsNotList)

def branchesOf (reference : Lookup) (location inside : Location) :
    Value → Resolve (List Schema.Branch)
  | .map entries => buildBranches reference location inside entries
  | _ => throw (.broken inside .branchesNotMap)

/-- The fields of an object, each under the text of its key, after those already found. -/
def buildFields (reference : Lookup) (inside : Location) (found : List (String × Schema)) :
    List (Value × Value) → Resolve (List (String × Schema))
  | [] => return found
  | (key, definition) :: entries => do
    let name ← needed key.text?
    let s ← build reference (inside.step (.key name)) definition
    buildFields reference inside (Named.put name s found) entries

/-- The positions of a tuple, the first of them at the given index. -/
def buildPositions (reference : Lookup) (inside : Location) (i : Nat) :
    List Value → Resolve (List Schema)
  | [] => return []
  | definition :: items => do
    let s ← build reference (inside.step (.index i)) definition
    let rest ← buildPositions reference inside (i + 1) items
    return s :: rest

/-- The branches of a variant. Each is checked before the next one is built. -/
def buildBranches (reference : Lookup) (location inside : Location) :
    List (Value × Value) → Resolve (List Schema.Branch)
  | [] => return []
  | (key, definition) :: entries => do
    let tag ← needed key.text?
    let s ← build reference (inside.step (.key tag)) definition
    let branch ← checked location (Schema.requireBranch tag (.schema s))
    let rest ← buildBranches reference location inside entries
    return branch :: rest

end

/-- The names from the one that is met again on, and that one once more. -/
def cycleFrom (name : String) (inProgress : List String) : List String :=
  inProgress.dropWhile (· != name) ++ [name]

/-- The schema of a name. `more` bounds the names that are not in progress. -/
def resolve (definitions : List (String × Value)) : Nat → List String → Lookup
  | more, inProgress, location, name => do
    match (← get).built.lookup name with
    | some s => return s
    | none =>
      if name ∈ inProgress then throw (.cyclic (cycleFrom name inProgress))
      else
        match definitions.lookup name, more with
        | none, _ => throw (.broken location (.unknownName name))
        | some _, 0 => throw (.cyclic (cycleFrom name inProgress))
        | some definition, more + 1 =>
          let s ← build (resolve definitions more (inProgress ++ [name])) ⟨name, []⟩ definition
          modify fun progress => { progress with built := progress.built ++ [(name, s)] }
          return s

def resolveAll (definitions : List (String × Value)) : List String → Resolve (List (String × Schema))
  | [] => return []
  | name :: names => do
    let s ← resolve definitions definitions.length [] ⟨name, []⟩ name
    let rest ← resolveAll definitions names
    return (name, s) :: rest

end Wireform.Registry
