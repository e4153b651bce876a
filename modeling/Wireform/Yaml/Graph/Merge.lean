import Wireform.Yaml.Cursor
import Wireform.Yaml.Graph.Basic

/-!
# Merge keys

A mapping may bring in the entries of others under merge keys. What it brings in stands before its own
entries, and the mappings that it names are settled first. A mapping may name itself, since every merge key
is taken out before what belongs to it is looked at.
-/
namespace Wireform.Yaml.Graph

abbrev Change := StateT Graph (Except Fault)

/-- Takes the first merge key out of a mapping, and gives what belongs to it. -/
def takeMerge (n : Nat) (g : Graph) : Option Nat × Graph :=
  let isMerge (e : Nat × Nat) : Bool := g.tag e.1 == .merge
  let entries := g.entries n
  match entries.find? isMerge with
  | some e => (some e.2, g.setContent n (.mapping (entries.eraseP isMerge)))
  | none => (none, g)

/-- Makes the value marks among the keys of a mapping texts. -/
def nameMarks (n : Nat) (g : Graph) : Graph :=
  (g.entries n).foldl (fun g e => if g.tag e.1 = .value then g.setTag e.1 .str else g) g

def prepend (n : Nat) (entries : List (Nat × Nat)) (g : Graph) : Graph :=
  if entries.isEmpty then g else g.setContent n (.mapping (entries ++ g.entries n))

/-- Settles a mapping, given how the entries of its merge keys are found. -/
def settleBy (bring : Nat → Change (List (Nat × Nat))) (n : Nat) : Change Unit := do
  let brought ← bring n
  modify fun g => (g.nameMarks n).prepend n brought

def settledEntries (bring : Nat → Change (List (Nat × Nat))) (n : Nat) :
    Change (List (Nat × Nat)) := do
  match (← get).content n with
  | .mapping _ => do
    settleBy bring n
    return (← get).entries n
  | _ => throw .malformed

/-- The entries that a merge key brings in: those of a mapping, or those of several, the last one first. -/
def entriesFrom (bring : Nat → Change (List (Nat × Nat))) (source : Nat) :
    Change (List (Nat × Nat)) := do
  match (← get).content source with
  | .sequence items => do
    let groups ← items.mapM (settledEntries bring)
    return groups.reverse.flatten
  | _ => settledEntries bring source

/-- The entries that the merge keys of a mapping bring in, up to a number of merge keys. -/
def bring : Nat → Nat → Change (List (Nat × Nat))
  | 0, _ => return []
  | more + 1, n => do
    match ← modifyGet (takeMerge n) with
    | none => return []
    | some source => do
      let entries ← entriesFrom (bring more) source
      return entries ++ (← bring more n)

def mergeCount (g : Graph) : Nat :=
  g.nodes.foldl
    (fun count node =>
      match node.content with
      | .mapping entries => count + entries.countP fun e => g.tag e.1 == .merge
      | _ => count)
    0

/-- Settles a mapping in a graph with at most the given number of merge keys. -/
def settle (merges n : Nat) : Change Unit :=
  settleBy (bring (merges + 1)) n

end Wireform.Yaml.Graph
