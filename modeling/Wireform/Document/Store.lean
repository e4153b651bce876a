import Wireform.Value.Basic

/-!
# Documents with shared parts

A collection may stand in several places of a document, and a change to it then shows in all of them. So
the collections are kept in numbered cells, and a place holds the number of a cell. `Shared.value` is the
document as a plain value, in which every place has a copy of its own.
-/
namespace Wireform.Document

/-- What stands in a place: a value without parts that could change, or the number of a cell. -/
inductive Part
  | value (v : Value)
  | cell (n : Nat)

/-- What a cell holds: a list, a list of pairs, a map, or a set. -/
inductive Cell
  | list (items : List Part)
  | pairs (items : List (Part × Part))
  | map (entries : List (Value × Part))
  | set (items : List Value)

def Cell.isEmpty : Cell → Bool
  | list items => items.isEmpty
  | pairs items => items.isEmpty
  | map entries => entries.isEmpty
  | set items => items.isEmpty

/-- An empty value of the same kind. -/
def Cell.blank : Cell → Value
  | list _ => .list []
  | pairs _ => .list []
  | map _ => .map []
  | set _ => .set []

structure Store where
  cells : Array Cell

namespace Store

def cell (s : Store) (n : Nat) : Cell :=
  s.cells.getD n (.list [])

def map? (s : Store) (n : Nat) : Option (List (Value × Part)) :=
  match s.cell n with
  | .map entries => some entries
  | _ => none

/-- Sets what belongs to a text as key in the map of a cell. -/
def put (n : Nat) (key : String) (part : Part) (s : Store) : Store :=
  match s.map? n with
  | some entries => ⟨s.cells.setIfInBounds n (.map (Value.put (.str key) part entries))⟩
  | none => s

/-- Adds a cell with an empty map under the next number. -/
def addMap (s : Store) : Store :=
  ⟨s.cells.push (.map [])⟩

def find? (key : String) : List (Value × Part) → Option Part
  | [] => none
  | (.str s, part) :: rest => if s = key then some part else find? key rest
  | _ :: rest => find? key rest

/-- The cell of the map that stands under a key, if there is one. -/
def section? (s : Store) (n : Nat) (key : String) : Option Nat :=
  match (s.map? n).bind (find? key) with
  | some (.cell m) => if (s.map? m).isSome then some m else none
  | _ => none

/-- A part as a value; the cells that were looked at before are at hand. A cell that stands inside itself
is empty there. -/
def unfold (s : Store) : Nat → Part → StateM (Array (Option Value)) Value
  | _, .value v => return v
  | 0, .cell n => return (s.cell n).blank
  | more + 1, .cell n => do
    match (← get).getD n none with
    | some v => return v
    | none => do
      modify (·.setIfInBounds n (some (s.cell n).blank))
      let v ←
        match s.cell n with
        | .list items => Value.list <$> items.mapM (unfold s more)
        | .pairs items =>
          Value.list <$> items.mapM fun p => do
            let first ← unfold s more p.1
            let second ← unfold s more p.2
            pure (Value.tuple [first, second])
        | .map entries =>
          Value.map <$> entries.mapM fun e => do
            let v ← unfold s more e.2
            pure (e.1, v)
        | .set items => pure (Value.set items)
      modify (·.setIfInBounds n (some v))
      return v

end Store

/-- A document: its cells, and what stands at its top. -/
structure Shared where
  store : Store
  root : Part

namespace Shared

def empty : Shared :=
  ⟨⟨#[.map []]⟩, .cell 0⟩

def isTruthy (d : Shared) : Bool :=
  match d.root with
  | .value v => v.isTruthy
  | .cell n => !(d.store.cell n).isEmpty

def value (d : Shared) : Value :=
  let size := d.store.cells.size
  ((d.store.unfold (size + 1) d.root).run (Array.replicate size none)).1

end Shared
end Wireform.Document
