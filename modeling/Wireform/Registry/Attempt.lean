import Wireform.Attempt
import Wireform.Registry.Basic

/-!
# Loading by operations that raise

Loading a registry once more, taken down to the operations that raise. The texts of arbitrary values raise if
an integer inside has too many digits; the look-up of a definition raises if there is none; the combinators
check what they are given and raise errors of their own; reading the document raises where it is no map from
texts and where its fields do not fit. Two handlers make errors of the registry of some of these, one around
the document and one around each combinator. Whatever they do not take goes on to the caller.
-/
namespace Wireform.Registry

inductive Raised
  /-- The registry's own error. -/
  | own (fault : LoadFault)
  /-- The error of a combinator. -/
  | definition (fault : DefinitionFault)
  /-- The error of the fields of a document. -/
  | fields (complaints : List Document.Complaint)
  | operation (kind : FaultKind)
  /-- A look-up finds nothing. -/
  | missing
  /-- There are no steps left. -/
  | endless

abbrev Attempting := ExceptT Raised (StateM Progress)

namespace Attempting

variable {α : Type}

/-- An operation that raises where it has no result. -/
def raising (kind : FaultKind) : Option α → Attempting α
  | some a => return a
  | none => throw (.operation kind)

/-- The error that a combinator raises. Only what has items can be gone through. -/
def ofBuildFault : BuildFault → Raised
  | .definition fault => .definition fault
  | .notIterable => .operation .type
  | .unknownName _ => .missing
  | .numberTooLong => .operation .value

def combining : Except BuildFault α → Attempting α
  | .ok a => return a
  | .error fault => throw (ofBuildFault fault)

/-- An error of a combinator is one of the registry, at the place of the definition. -/
def atLocation (location : Location) : Raised → Raised
  | .definition fault => .own (.broken location (.definition fault))
  | e => e

/-- The handler around the combinator of a definition. -/
def translating (location : Location) (x : Attempting α) : Attempting α :=
  ExceptT.adapt (atLocation location) x

/-- Whatever is wrong with the fields of a document, and a document without fields, is an error of the
registry. -/
def atDocument : Raised → Raised
  | .operation .type => .own .notFields
  | .fields complaints => .own (.malformed complaints)
  | e => e

def report (records : List Log.Record) : Attempting Unit :=
  modify fun progress => { progress with log := progress.log ++ records }

def combinator (location : Location) : Value → Attempting Combinator
  | .str name =>
    match Combinator.ofName? name with
    | some c => return c
    | none => throw (.own (.broken location (.unknownCombinator (Text.quote name))))
  | key => do throw (.own (.broken location (.unknownCombinator (← raising .value key.written?))))

/-! ### Combinators and their checks -/

def one (c : Combinator) (mk : Schema → Schema) (s : Schema) : Attempting Schema := do
  return mk (← combining (Schema.require (.inner c) (.schema s)))

def keyed (c : Combinator) (mk : List (String × Schema) → Schema) (fields : List (String × Schema)) :
    Attempting Schema := do
  return mk (← combining (Schema.requireFields c (fields.map fun f => (.str f.1, .schema f.2))))

def indexed (positions : List Schema) : Attempting Schema := do
  return .tuple (← combining (Schema.requirePositions 0 (positions.map .schema)))

def enumerated (inside : Location) (argument : Value) : Attempting Schema :=
  match argument with
  | .list _ | .map _ => do return .oneOf (← combining (Schema.requireMembers (.value argument)))
  | _ => throw (.own (.broken inside .membersNotCollection))

def tagged (branches : List Schema.Branch) : Attempting Schema := do
  let s ← combining (Schema.variantOf Schema.defaultDiscriminant branches)
  report (Schema.tagWarnings (branches.map (·.1)))
  return s

/-! ### The builder -/

/-- How references are resolved: the place of the reference, and its name. -/
abbrev Lookup := Location → String → Attempting Schema

mutual

def build (reference : Lookup) (location : Location) : Value → Attempting Schema
  | .str name =>
    match Scalar.ofName? name with
    | some kind => return .scalar kind
    | none => reference location name
  | .map [(key, argument)] => do
    let c ← combinator location key
    let inside := location.step (.combinator c)
    translating location
      (match c with
      | .optional => do one c .optional (← build reference inside argument)
      | .nullable => do one c .nullable (← build reference inside argument)
      | .array => do one c .array (← build reference inside argument)
      | .object => do keyed c .object (← fieldsOf reference inside argument)
      | .partialObject => do keyed c Schema.partialObject (← fieldsOf reference inside argument)
      | .tuple => do indexed (← positionsOf reference inside argument)
      | .oneOf => enumerated inside argument
      | .variant => do tagged (← branchesOf reference inside argument))
  | v => do throw (.own (.broken location (.notDefinition (← raising .value v.written?))))

def fieldsOf (reference : Lookup) (inside : Location) : Value → Attempting (List (String × Schema))
  | .map entries => buildFields reference inside [] entries
  | _ => throw (.own (.broken inside .fieldsNotMap))

def positionsOf (reference : Lookup) (inside : Location) : Value → Attempting (List Schema)
  | .list items => buildPositions reference inside 0 items
  | _ => throw (.own (.broken inside .positionsNotList))

def branchesOf (reference : Lookup) (inside : Location) : Value → Attempting (List Schema.Branch)
  | .map entries => buildBranches reference inside entries
  | _ => throw (.own (.broken inside .branchesNotMap))

def buildFields (reference : Lookup) (inside : Location) (found : List (String × Schema)) :
    List (Value × Value) → Attempting (List (String × Schema))
  | [] => return found
  | (key, definition) :: entries => do
    let name ← raising .value key.text?
    let s ← build reference (inside.step (.key name)) definition
    buildFields reference inside (Named.put name s found) entries

def buildPositions (reference : Lookup) (inside : Location) (i : Nat) :
    List Value → Attempting (List Schema)
  | [] => return []
  | definition :: items => do
    let s ← build reference (inside.step (.index i)) definition
    let rest ← buildPositions reference inside (i + 1) items
    return s :: rest

/-- The combinator takes the branches one by one, and checks each before the next one is built. -/
def buildBranches (reference : Lookup) (inside : Location) :
    List (Value × Value) → Attempting (List Schema.Branch)
  | [] => return []
  | (key, definition) :: entries => do
    let tag ← raising .value key.text?
    let s ← build reference (inside.step (.key tag)) definition
    let branch ← combining (Schema.branchOf (.value (.str tag)) (.schema s))
    let rest ← buildBranches reference inside entries
    return branch :: rest

end

/-- A reference is looked up only if there is a definition under its name. -/
def defined (definitions : List (String × Value)) (named : String → Attempting Schema) : Lookup :=
  fun location name =>
    if name ∈ definitions.map (·.1) then named name
    else throw (.own (.broken location (.unknownName name)))

/-- The schema of a name. A name is looked up without another test. -/
def named (definitions : List (String × Value)) :
    Nat → List String → String → Attempting Schema
  | more, inProgress, name => do
    match (← get).built.lookup name with
    | some s => return s
    | none =>
      if name ∈ inProgress then throw (.own (.cyclic (cycleFrom name inProgress)))
      else
        match definitions.lookup name, more with
        | none, _ => throw .missing
        | some _, 0 => throw .endless
        | some definition, more + 1 =>
          let s ← build (defined definitions (named definitions more (inProgress ++ [name])))
            ⟨name, []⟩ definition
          modify fun progress => { progress with built := progress.built ++ [(name, s)] }
          return s

def allNamed (definitions : List (String × Value)) :
    List String → Attempting (List (String × Schema))
  | [] => return []
  | name :: names => do
    let s ← named definitions definitions.length [] name
    let rest ← allNamed definitions names
    return (name, s) :: rest

/-- The definitions of a document that has fields, and fields that fit. -/
def definitionsIn : Value → Attempting (List (String × Value))
  | .map entries =>
    if !(Document.badKeys entries).isEmpty then throw (.operation .type)
    else
      match versionComplaints entries, definitionsOf entries with
      | [], .ok definitions => return definitions
      | complaints, .ok _ => throw (.fields complaints)
      | complaints, .error more => throw (.fields (complaints ++ more))
  | _ => throw (.operation .type)

def loadSchemas (document : Value) : Attempting (List (String × Schema)) := do
  let definitions ← ExceptT.adapt atDocument (definitionsIn document)
  let names := definitions.map (·.1)
  if (shadowing names).isEmpty then
    let schemas ← allNamed definitions names
    report [loadedRecord names]
    return schemas
  else throw (.own (.shadowing (shadowing names)))

end Attempting

/-- The registry of a document, or what was raised, with what was reported on the way. -/
def attemptDocument (maxDepth : Option Int) (document : Value) :
    Except Raised Registry × List Log.Record :=
  let (result, progress) := (Attempting.loadSchemas document).run.run ⟨[], []⟩
  (result.map fun schemas => ⟨schemas, maxDepth⟩, progress.log)

end Wireform.Registry
