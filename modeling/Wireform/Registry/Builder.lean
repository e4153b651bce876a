import Wireform.Registry.Attempt

/-!
# The builder and its books

Building the schemas of a document once more, with the books that are kept on the way: the schemas that are
done, by name, and the names in progress, in the order in which they were begun. There is one pair of books,
changed in place, so a call finds what other calls left in them. A name is entered before its definition is
built, and struck out after that, whether or not something was raised. Definitions are gone through down to
their parts; only a reference leads to something larger, and each one takes a step. If the steps do not
suffice, there is no result.

A run notes the books before every change, and every call that has ended, with the books that the call found
and the books that it left.
-/
namespace Wireform.Registry.Builder

structure Books where
  built : List (String × Schema)
  inProgress : List String

inductive Call
  /-- The schema of a name is asked for. -/
  | named (name : String)
  /-- The schema of the definition at a place is asked for. -/
  | build (location : Location) (definition : Value)

def Call.name? : Call → Option String
  | named name => some name
  | build _ _ => none

/-- A call that has given its result or has raised. -/
structure Ended where
  call : Call
  /-- The calls that it was made inside of, the outermost one first. -/
  callers : List Call
  found : Books
  left : Books
  result : Except Raised Schema

/-- The name whose whole definition was built by the call. -/
def Ended.completes? (e : Ended) : Option String :=
  match e.call, e.result with
  | .build location _, .ok _ => if location.steps = [] then some location.name else none
  | _, _ => none

/-- A run up to some moment. -/
structure Run where
  books : Books
  /-- The books before each of the changes so far. -/
  past : List Books
  log : List Log.Record
  /-- The calls under way, the outermost one first. -/
  callers : List Call
  ended : List Ended

namespace Run

def start : Run :=
  ⟨⟨[], []⟩, [], [], [], []⟩

/-- The books at all moments up to now. -/
def history (r : Run) : List Books :=
  r.past ++ [r.books]

/-- The names that calls under way are for. -/
def names (r : Run) : List String :=
  r.callers.filterMap Call.name?

def write (books : Books) (r : Run) : Run :=
  { r with books := books, past := r.history }

def begin (name : String) (r : Run) : Run :=
  r.write { r.books with inProgress := r.books.inProgress ++ [name] }

def finish (r : Run) : Run :=
  r.write { r.books with inProgress := r.books.inProgress.dropLast }

def keep (name : String) (s : Schema) (r : Run) : Run :=
  r.write { r.books with built := Named.put name s r.books.built }

def enter (call : Call) (r : Run) : Run :=
  { r with callers := r.callers ++ [call] }

/-- The run after a call that was made in another run ends in this one. -/
def leave (call : Call) (result : Except Raised Schema) (before r : Run) : Run :=
  { r with
    callers := before.callers
    ended := r.ended ++ [⟨call, before.callers, before.books, r.books, result⟩] }

end Run

abbrev Building := ExceptT Raised (StateT Run Option)

section

variable {α : Type}

/-- There are no steps left. -/
def endless : Building α :=
  fun _ => none

/-- An operation that has nothing to do with the books. Only what it reports is taken over. -/
def aside (x : Attempting α) : Building α := fun r =>
  let (result, progress) := x.run.run ⟨r.books.built, r.log⟩
  some (result, { r with log := progress.log })

/-- The handler around the combinator of a definition. -/
def translating (location : Location) (x : Building α) : Building α := fun r => do
  let (result, after) ← x r
  some (result.mapError (Attempting.atLocation location), after)

/-- Strikes out the last name in progress at the end, also if something is raised. -/
def finishing (x : Building α) : Building α := fun r => do
  let (result, after) ← x r
  some (result, after.finish)

def observing (call : Call) (x : Building Schema) : Building Schema := fun r => do
  let (result, after) ← x (r.enter call)
  some (result, Run.leave call result r after)

end

/-- How references are resolved: the place of the reference, and its name. -/
abbrev Lookup := Location → String → Building Schema

mutual

def build (reference : Lookup) (location : Location) (d : Value) : Building Schema :=
  observing (.build location d) <|
    match d with
    | .str name =>
      match Scalar.ofName? name with
      | some kind => return .scalar kind
      | none => reference location name
    | .map [(key, argument)] => do
      let c ← aside (Attempting.combinator location key)
      let inside := location.step (.combinator c)
      translating location
        (match c with
        | .optional => do aside (Attempting.one c .optional (← build reference inside argument))
        | .nullable => do aside (Attempting.one c .nullable (← build reference inside argument))
        | .array => do aside (Attempting.one c .array (← build reference inside argument))
        | .object => do aside (Attempting.keyed c .object (← fieldsOf reference inside argument))
        | .partialObject => do
          aside (Attempting.keyed c Schema.partialObject (← fieldsOf reference inside argument))
        | .tuple => do aside (Attempting.indexed (← positionsOf reference inside argument))
        | .oneOf => aside (Attempting.enumerated inside argument)
        | .variant => do aside (Attempting.tagged (← branchesOf reference inside argument)))
    | v => aside do
      throw (.own (.broken location (.notDefinition (← Attempting.raising .value v.written?))))

def fieldsOf (reference : Lookup) (inside : Location) : Value → Building (List (String × Schema))
  | .map entries => buildFields reference inside [] entries
  | _ => throw (.own (.broken inside .fieldsNotMap))

def positionsOf (reference : Lookup) (inside : Location) : Value → Building (List Schema)
  | .list items => buildPositions reference inside 0 items
  | _ => throw (.own (.broken inside .positionsNotList))

def branchesOf (reference : Lookup) (inside : Location) : Value → Building (List Schema.Branch)
  | .map entries => buildBranches reference inside entries
  | _ => throw (.own (.broken inside .branchesNotMap))

def buildFields (reference : Lookup) (inside : Location) (found : List (String × Schema)) :
    List (Value × Value) → Building (List (String × Schema))
  | [] => return found
  | (key, definition) :: entries => do
    let name ← aside (Attempting.raising .value key.text?)
    let s ← build reference (inside.step (.key name)) definition
    buildFields reference inside (Named.put name s found) entries

def buildPositions (reference : Lookup) (inside : Location) (i : Nat) :
    List Value → Building (List Schema)
  | [] => return []
  | definition :: items => do
    let s ← build reference (inside.step (.index i)) definition
    let rest ← buildPositions reference inside (i + 1) items
    return s :: rest

def buildBranches (reference : Lookup) (inside : Location) :
    List (Value × Value) → Building (List Schema.Branch)
  | [] => return []
  | (key, definition) :: entries => do
    let tag ← aside (Attempting.raising .value key.text?)
    let s ← build reference (inside.step (.key tag)) definition
    let branch ← aside (Attempting.combining (Schema.branchOf (.value (.str tag)) (.schema s)))
    let rest ← buildBranches reference inside entries
    return branch :: rest

end

/-- Asks the books for the schema of a name. What is done instead is for a name that is neither done nor in
progress. -/
def consulting (name : String) (x : Building Schema) : Building Schema :=
  observing (.named name) do
    let books := (← get).books
    match books.built.lookup name with
    | some s => return s
    | none =>
      if name ∈ books.inProgress then throw (.own (.cyclic (cycleFrom name books.inProgress)))
      else x

variable (definitions : List (String × Value))

/-- A reference is looked up only if there is a definition under its name. -/
def defined (named : String → Building Schema) : Lookup := fun location name =>
  if name ∈ definitions.map (·.1) then named name
  else throw (.own (.broken location (.unknownName name)))

/-- The schema of a name that is neither done nor in progress. -/
def fresh (reference : Lookup) (name : String) : Building Schema := do
  modify (·.begin name)
  let s ← finishing
    (match definitions.lookup name with
    | some d => build reference ⟨name, []⟩ d
    | none => throw .missing)
  modify (·.keep name s)
  return s

/-- The schema of a name, with a number of steps for the names that are begun on the way. -/
def named : Nat → String → Building Schema
  | 0, name => consulting name endless
  | steps + 1, name => consulting name (fresh definitions (defined definitions (named steps)) name)

def allNamed (steps : Nat) : List String → Building (List (String × Schema))
  | [] => return []
  | name :: names => do
    let s ← named definitions steps name
    let rest ← allNamed steps names
    return (name, s) :: rest

/-- The schemas of all names, or what was raised, with the run up to there. -/
def buildAll (steps : Nat) : Option (Except Raised (List (String × Schema)) × Run) :=
  (allNamed definitions steps (definitions.map (·.1))).run.run Run.start

end Wireform.Registry.Builder
