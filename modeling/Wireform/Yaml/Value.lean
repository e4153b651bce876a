import Wireform.Document.Store
import Wireform.Value.SetOrder
import Wireform.Yaml.Graph.Merge
import Wireform.Yaml.Graph.Read
import Wireform.Yaml.ScalarValue

/-!
# Values of documents

The document that a graph of nodes stands for. The value of a scalar is found where it stands; a collection
begins as an empty cell, which is filled once all those that began before it are. So of several faults the
one with the fewest collections around it counts, and of those the first.

A file that holds nothing that counts as true is a document without entries.
-/
namespace Wireform.Yaml

open Document (Part Cell Shared)

def Tag.isCollection : Tag → Bool
  | .omap | .pairs | .set | .seq | .map => true
  | _ => false

def Tag.isScalar : Tag → Bool
  | .null | .bool | .int | .float | .binary | .timestamp | .str => true
  | _ => false

/-- The text that a node has under a scalar tag: its own, or for a mapping that of the first entry with the
value mark. -/
def Graph.scalarText? (g : Graph) : Nat → Nat → Option (List Char)
  | 0, _ => none
  | more + 1, n =>
    match g.content n with
    | .scalar text => some text
    | .sequence _ => none
    | .mapping entries =>
      match entries.find? fun e => g.tag e.1 == .value with
      | some e => scalarText? g more e.2
      | none => none

def Graph.textOf? (g : Graph) (n : Nat) : Option (List Char) :=
  g.scalarText? (g.nodes.size + 1) n

def scalarValue (tag : Tag) (text : List Char) : Except Fault Value :=
  match tag with
  | .null => .ok .null
  | .bool => (boolOf text).map .bool
  | .int => (intOf text).map .int
  | .float => (floatOf text).map .float
  | .binary => (bytesOf text).map .bytes
  | .timestamp => timeOf text
  | .str => .ok (.str (String.ofList text))
  | _ => .error .malformed

/-- The value of a node with a scalar tag. A time has to be written as a scalar. -/
def Graph.scalar (g : Graph) (n : Nat) : Except Fault Value :=
  let tag := g.tag n
  if !tag.isScalar then .error .malformed
  else
    match g.textOf? n, tag, g.content n with
    | none, _, _ => .error .malformed
    | some _, .timestamp, .mapping _ => .error .nestedTime
    | some text, tag, _ => scalarValue tag text

/-! ## Keys -/

/-- A key of a mapping. What is no number is the same key only as itself: its mark is one value wherever it
stands, and otherwise it belongs to the node that it was read from. -/
structure Key where
  value : Value
  origin : Option Nat

def Key.same (a b : Key) : Bool :=
  match a.value, b.value with
  | .float .nan, .float .nan => a.origin == b.origin
  | v, w => v.sameKey w

/-- Sets what belongs to a key in place, or adds the key at the end. -/
def putKey (key : Key) (part : Part) : List (Key × Part) → List (Key × Part)
  | [] => [(key, part)]
  | (k, p) :: rest => if k.same key then (k, part) :: rest else (k, p) :: putKey key part rest

/-! ## Building -/

/-- The state between two collections. -/
structure Building where
  graph : Graph
  /-- What became of the nodes; those that have not begun are absent. -/
  cells : Array (Option Cell)
  /-- The collections that have begun and are not filled, the last one first. -/
  waiting : List Nat

abbrev Build := StateT Building (Except Fault)

namespace Build

def begin (n : Nat) : Build Unit :=
  modify fun b =>
    match b.cells.getD n none with
    | some _ => b
    | none =>
      { b with cells := b.cells.setIfInBounds n (some (.list [])), waiting := n :: b.waiting }

def setCell (n : Nat) (cell : Cell) : Build Unit :=
  modify fun b => { b with cells := b.cells.setIfInBounds n (some cell) }

/-- What stands in the place of a node: a value, or the cell of a collection. -/
def part (n : Nat) : Build Part := do
  let b ← get
  if (b.graph.tag n).isCollection then
    begin n
    return .cell n
  else
    match b.graph.scalar n with
    | .ok v => return .value v
    | .error fault => throw fault

def pair (e : Nat × Nat) : Build (Part × Part) := do
  let first ← part e.1
  let second ← part e.2
  return (first, second)

/-- The only entry of a mapping. -/
def single (n : Nat) : Build (Nat × Nat) := do
  match (← get).graph.content n with
  | .mapping [e] => return e
  | _ => throw .malformed

/-- A node as a key, which is never a collection. -/
def key (n : Nat) : Build Key := do
  match ← part n with
  | .cell _ => throw .malformed
  | .value v => do
    let isMark := ((← get).graph.textOf? n).any isNanMark
    return ⟨v, if isMark then none else some n⟩

/-- The entries of a settled mapping; a key keeps its first place and takes its last value. -/
def entries : List (Nat × Nat) → List (Key × Part) → Build (List (Key × Part))
  | [], found => return found
  | e :: es, found => do
    let k ← key e.1
    let p ← part e.2
    entries es (putKey k p found)

/-- Settles a mapping, and gives its entries. -/
def mapping (merges n : Nat) : Build (List (Key × Part)) := do
  let b ← get
  match (Graph.settle merges n).run b.graph with
  | .error fault => throw fault
  | .ok ((), graph) => do
    set { b with graph := graph }
    entries (graph.entries n) []

/-- Fills a collection. -/
def fill (merges n : Nat) : Build Unit := do
  let graph := (← get).graph
  match graph.tag n, graph.content n with
  | .seq, .sequence items => do
    setCell n (.list (← items.mapM part))
  | .omap, .sequence items => do
    setCell n (.pairs (← items.mapM fun item => do pair (← single item)))
  | .pairs, .sequence items => do
    setCell n (.pairs (← items.mapM fun item => do pair (← single item)))
  | .map, .mapping _ => do
    let found ← mapping merges n
    setCell n (.map (found.map fun e => (e.1.value, e.2)))
  | .set, .mapping _ => do
    let found ← mapping merges n
    setCell n (.set (SetOrder.arrange (found.map fun e => e.1.value)))
  | _, _ => throw .malformed

/-- The collections that wait, which do not wait any longer. -/
def takeWaiting : Build (List Nat) :=
  modifyGet fun b => (b.waiting.reverse, { b with waiting := [] })

/-- Fills the collections that wait, and those that begin meanwhile, round by round. -/
def fillAll (merges : Nat) : Nat → Build Unit
  | 0 => return
  | more + 1 => do
    match ← takeWaiting with
    | [] => return
    | ns => do
      ns.forM (fill merges)
      fillAll merges more

/-- The document with the given root. -/
def document (root : Nat) : Build Part := do
  let graph := (← get).graph
  let top ← part root
  fillAll graph.mergeCount (graph.nodes.size + 1)
  return top

end Build

def Graph.document (g : Graph) (root : Nat) : Except Fault Shared := do
  let (top, b) ← (Build.document root).run ⟨g, Array.replicate g.nodes.size none, []⟩
  return ⟨⟨b.cells.map (·.getD (.list []))⟩, top⟩

/-- The document of a text; a text without a document is null. -/
def load (text : String) : Except Fault Shared := do
  match ← Graph.read text.toList with
  | (none, _) => return ⟨⟨#[]⟩, .value .null⟩
  | (some root, g) => g.document root

/-- The document of a text, an empty map instead of whatever counts as false. -/
def loadOrEmpty (text : String) : Except Fault Shared := do
  let d ← load text
  return if d.isTruthy then d else .empty

end Wireform.Yaml

namespace Wireform.Document

/-- What stands at a path. A path of which a part is too long cannot even be looked up. -/
inductive File
  | missing
  | folder
  | tooLong
  | text (content : String)

inductive FileFault
  | missing
  | folder
  | tooLong
  | yaml (fault : Yaml.Fault)

def File.document : File → Except FileFault Shared
  | missing => .error .missing
  | folder => .error .folder
  | tooLong => .error .tooLong
  | text content => (Yaml.loadOrEmpty content).mapError .yaml

end Wireform.Document
