import Wireform.Yaml.Graph.Basic
import Wireform.Yaml.Lexer

/-!
# From tokens to nodes

The graph of a document. Every node has its tag, and an alias stands for the node with the same name that
began before it. A fault ends the reading at the token where it shows, so what comes later is not looked
at.
-/
namespace Wireform.Yaml

/-- What is left to read, what was read, and what the names in it stand for. -/
structure Reader where
  lexer : Lexer
  graph : Graph
  anchors : List (List Char × Nat)
  /-- What tag handles stand for. -/
  handles : List (List Char × List Char)

abbrev Read := StateT Reader (Except Fault)

namespace Read

def peek : Read Token := do
  let r ← get
  let (t, lexer) ← r.lexer.peek
  set { r with lexer := lexer }
  return t

/-- Goes past the next token, which was seen before. -/
def advance : Read Unit :=
  modify fun r => { r with lexer := r.lexer.take }

/-- Goes past the next token, which has to be the given one. -/
def expect (t : Token) : Read Unit := do
  if (← peek) = t then advance else throw .malformed

def add (node : Node) : Read Nat :=
  modifyGet fun r => (r.graph.nodes.size, { r with graph := r.graph.add node })

def addEmpty : Read Nat :=
  add .empty

/-- Adds a node under a name, if it has one. A name is given once. -/
def addNamed (anchor : Option (List Char)) (node : Node) : Read Nat := do
  match anchor with
  | none => add node
  | some name =>
    if (← get).anchors.any (·.1 = name) then throw .malformed
    let n ← add node
    modify fun r => { r with anchors := (name, n) :: r.anchors }
    return n

def setContent (n : Nat) (content : Content) : Read Nat :=
  modifyGet fun r => (n, { r with graph := r.graph.setContent n content })

/-! ## Properties -/

/-- What an explicit tag says: nothing, or that the text decides, or its full name. -/
inductive Explicit
  | absent
  | byText
  | full (name : List Char)

def tagToken : Read (Option (Option (List Char) × List Char)) := do
  match ← peek with
  | .tag handle suffix => do
    advance
    return some (handle, suffix)
  | _ => return none

def anchorToken : Read (Option (List Char)) := do
  match ← peek with
  | .anchor name => do
    advance
    return some name
  | _ => return none

/-- A tag with its handle replaced. -/
def explicitOf : Option (Option (List Char) × List Char) → Read Explicit
  | none => return .absent
  | some (handle, suffix) => do
    let name ←
      match handle with
      | none => pure suffix
      | some h =>
        match (← get).handles.lookup h with
        | some start => pure (start ++ suffix)
        | none => throw .malformed
    return if name = ['!'] then .byText else .full name

/-- An anchor and a tag in any order. -/
def properties : Read (Option (List Char) × Explicit) := do
  match ← anchorToken with
  | some name => do
    let tag ← tagToken
    return (some name, ← explicitOf tag)
  | none =>
    match ← tagToken with
    | none => return (none, .absent)
    | tag => do
      let anchor ← anchorToken
      return (anchor, ← explicitOf tag)

def scalarTag (e : Explicit) (plain : Bool) (text : List Char) : Tag :=
  match e with
  | .absent => if plain then .ofPlain text else .str
  | .byText => .ofPlain text
  | .full name => .ofName name

def collectionTag (e : Explicit) (usual : Tag) : Tag :=
  match e with
  | .full name => .ofName name
  | _ => usual

/-- Where a node may stand: among brackets, in a block, or after a key, where a sequence needs no
indentation. -/
inductive Context
  | flow
  | block
  | afterKey
deriving DecidableEq

/-! ## Nodes -/

/-- Whether a token ends an entry that has no node. -/
def endsEntry (others : List Token) : Read Bool := do
  return others.contains (← peek)

/-- An anchor or a tag without a node stands for an empty one; nothing at all is a fault. -/
def noNode : Option (List Char) → Explicit → Read Nat
  | none, .absent => throw .malformed
  | anchor, tag => addNamed anchor ⟨scalarTag tag true [], .scalar []⟩

mutual

def node : Nat → Context → Read Nat
  | 0, _ => throw .malformed
  | more + 1, context => do
    match ← peek with
    | .alias name => do
      advance
      match (← get).anchors.lookup name with
      | some n => return n
      | none => throw .malformed
    | _ =>
      let (anchor, tag) ← properties
      let inBlock := context != .flow
      match ← peek with
      | .scalar text plain => do
        advance
        addNamed anchor ⟨scalarTag tag plain text, .scalar text⟩
      | .flowSequenceStart => do
        advance
        let n ← addNamed anchor ⟨collectionTag tag .seq, .sequence []⟩
        setContent n (.sequence (← flowItems more true))
      | .flowMappingStart => do
        advance
        let n ← addNamed anchor ⟨collectionTag tag .map, .mapping []⟩
        setContent n (.mapping (← flowEntries more true))
      | .blockEntry =>
        if context = .afterKey then do
          let n ← addNamed anchor ⟨collectionTag tag .seq, .sequence []⟩
          setContent n (.sequence (← looseItems more))
        else noNode anchor tag
      | .blockSequenceStart =>
        if inBlock then do
          advance
          let n ← addNamed anchor ⟨collectionTag tag .seq, .sequence []⟩
          setContent n (.sequence (← blockItems more))
        else noNode anchor tag
      | .blockMappingStart =>
        if inBlock then do
          advance
          let n ← addNamed anchor ⟨collectionTag tag .map, .mapping []⟩
          setContent n (.mapping (← blockEntries more))
        else noNode anchor tag
      | _ => noNode anchor tag

/-- A node unless the entry ends here. -/
def nodeUnless : Nat → Context → List Token → Read Nat
  | 0, _, _ => throw .malformed
  | more + 1, context, enders => do
    if ← endsEntry enders then addEmpty else node more context

def blockItems : Nat → Read (List Nat)
  | 0 => throw .malformed
  | more + 1 => do
    match ← peek with
    | .blockEntry => do
      advance
      let item ← nodeUnless more .block [.blockEntry, .blockEnd]
      return item :: (← blockItems more)
    | _ => do
      expect .blockEnd
      return []

/-- The items of a sequence that is not indented below its key. -/
def looseItems : Nat → Read (List Nat)
  | 0 => throw .malformed
  | more + 1 => do
    match ← peek with
    | .blockEntry => do
      advance
      let item ← nodeUnless more .block [.blockEntry, .key, .value, .blockEnd]
      return item :: (← looseItems more)
    | _ => return []

def blockEntries : Nat → Read (List (Nat × Nat))
  | 0 => throw .malformed
  | more + 1 => do
    match ← peek with
    | .key => do
      advance
      let key ← nodeUnless more .afterKey [.key, .value, .blockEnd]
      let value ← blockValue more
      return (key, value) :: (← blockEntries more)
    | _ => do
      expect .blockEnd
      return []

def blockValue : Nat → Read Nat
  | 0 => throw .malformed
  | more + 1 => do
    match ← peek with
    | .value => do
      advance
      nodeUnless more .afterKey [.key, .value, .blockEnd]
    | _ => addEmpty

/-- The items between square brackets, the first of them without a comma in front. A pair among them is a
mapping of its own. -/
def flowItems : Nat → Bool → Read (List Nat)
  | 0, _ => throw .malformed
  | more + 1, isFirst => do
    if (← peek) = .flowSequenceEnd then
      advance
      return []
    if !isFirst then expect .flowEntry
    match ← peek with
    | .key => do
      advance
      let n ← add ⟨.map, .mapping []⟩
      let key ← nodeUnless more .flow [.value, .flowEntry, .flowSequenceEnd]
      let value ← flowValue more .flowSequenceEnd
      let item ← setContent n (.mapping [(key, value)])
      return item :: (← flowItems more false)
    | .flowSequenceEnd => do
      advance
      return []
    | _ => do
      let item ← node more .flow
      return item :: (← flowItems more false)

/-- The value after a key among brackets. -/
def flowValue : Nat → Token → Read Nat
  | 0, _ => throw .malformed
  | more + 1, closing => do
    match ← peek with
    | .value => do
      advance
      nodeUnless more .flow [.flowEntry, closing]
    | _ => addEmpty

/-- The entries between braces. A node without a colon is a key without a value. -/
def flowEntries : Nat → Bool → Read (List (Nat × Nat))
  | 0, _ => throw .malformed
  | more + 1, isFirst => do
    if (← peek) = .flowMappingEnd then
      advance
      return []
    if !isFirst then expect .flowEntry
    match ← peek with
    | .key => do
      advance
      let key ← nodeUnless more .flow [.value, .flowEntry, .flowMappingEnd]
      let value ← flowValue more .flowMappingEnd
      return (key, value) :: (← flowEntries more false)
    | .flowMappingEnd => do
      advance
      return []
    | _ => do
      let key ← node more .flow
      let value ← addEmpty
      return (key, value) :: (← flowEntries more false)

end

/-! ## Documents -/

/-- What the directives from here on declare. -/
def directives : Nat → Bool → Read Unit
  | 0, _ => throw .malformed
  | more + 1, versioned => do
    match ← peek with
    | .directive (.version major _) => do
      if versioned || major ≠ 1 then throw .malformed
      advance
      directives more true
    | .directive (.tag handle start) => do
      if (← get).handles.any (·.1 = handle) then throw .malformed
      modify fun r => { r with handles := (handle, start) :: r.handles }
      advance
      directives more versioned
    | .directive .unknown => do
      advance
      directives more versioned
    | _ => return

/-- The handles that need no declaration. -/
def usualHandles : List (List Char × List Char) :=
  [(['!'], ['!']), (['!', '!'], Tag.standardStart.toList)]

/-- The start of a document: its directives and the mark after them. -/
def documentStart (size : Nat) : Read Unit := do
  modify fun r => { r with handles := [] }
  directives size false
  expect .documentStart
  modify fun r => { r with handles := r.handles ++ usualHandles }

/-- Goes past any marks of the end of a document. -/
def skipEnds : Nat → Read Unit
  | 0 => return
  | more + 1 => do
    match ← peek with
    | .documentEnd => do
      advance
      skipEnds more
    | _ => return

/-- The end of a text after its only document. -/
def textEnd (size : Nat) : Read Unit := do
  skipEnds size
  if (← peek) ≠ .streamEnd then
    documentStart size
    throw .malformed

/-- The root of the only document of a text; a text without a document has none. -/
def root (size : Nat) : Read (Option Nat) := do
  match ← peek with
  | .streamEnd => return none
  | .directive _ | .documentStart => do
    documentStart size
    let isEmpty ←
      match ← peek with
      | .directive _ | .documentStart | .documentEnd | .streamEnd => pure true
      | _ => pure false
    let n ← if isEmpty then addEmpty else node size .block
    textEnd size
    return some n
  | _ => do
    modify fun r => { r with handles := usualHandles }
    let n ← node size .block
    textEnd size
    return some n

end Read

/-- The nodes of a text with the number of the root, unless the text has no document. -/
def Graph.read (cs : List Char) : Except Fault (Option Nat × Graph) := do
  let (root, reader) ← (Read.root (16 * cs.length + 32)).run ⟨.start cs, .empty, [], []⟩
  return (root, reader.graph)

end Wireform.Yaml
