import Wireform.Yaml.ScalarText

/-!
# From text to tokens

Tokens are found one after the other, and only as far as they are asked for: a token can be taken as soon
as it is certain that no key token has to go in front of it. Indentation opens and closes blocks; whatever
could be a key is remembered, and its key token is put in front of it when the colon comes. A key without a
question mark stands on one line and has at most 1024 characters before its colon.

Nesting by indentation shows as start and end tokens, and every key of a mapping has a token in front of it, however
it was written.
-/
namespace Wireform.Yaml

/-- What a directive line declares: a version of the format, or what a tag handle stands for. -/
inductive Directive
  | version (major minor : Nat)
  | tag (handle start : List Char)
  | unknown
deriving DecidableEq

inductive Token
  | directive (d : Directive)
  | documentStart
  | documentEnd
  | streamEnd
  | blockSequenceStart
  | blockMappingStart
  | blockEnd
  | flowSequenceStart
  | flowSequenceEnd
  | flowMappingStart
  | flowMappingEnd
  | flowEntry
  | blockEntry
  | key
  | value
  | alias (name : List Char)
  | anchor (name : List Char)
  | tag (handle : Option (List Char)) (suffix : List Char)
  /-- The text of a scalar, and whether it was written without quotes. -/
  | scalar (text : List Char) (plain : Bool)
deriving DecidableEq

end Wireform.Yaml

namespace Wireform.Yaml

/-- A place where a key without a question mark may begin. -/
structure KeyStart where
  /-- The number of tokens in front of it. -/
  token : Nat
  /-- Whether a colon has to follow. -/
  required : Bool
  index : Nat
  line : Nat
  column : Nat

/-- The state between two tokens. -/
structure Lexer where
  cursor : Cursor
  /-- The tokens that were found and not taken yet, and the number of those that were taken. -/
  ahead : List Token
  taken : Nat
  isDone : Bool
  flow : Nat
  /-- The column of the block that is open, before all columns if there is none. -/
  indent : Int
  /-- The columns of the blocks around it. -/
  outer : List Int
  /-- The possible keys, at most one for each number of open brackets. -/
  keys : List (Nat × KeyStart)
  allowKey : Bool

namespace Lexer

def start (cs : List Char) : Lexer :=
  let (text, isCut) := readable (unifyReturns cs)
  ⟨.start text isCut, [], 0, false, 0, -1, [], [], true⟩

def count (l : Lexer) : Nat :=
  l.taken + l.ahead.length

def emit (t : Token) (l : Lexer) : Lexer :=
  { l with ahead := l.ahead ++ [t] }

/-- Puts a token behind the given number of others. -/
def insert (position : Nat) (t : Token) (l : Lexer) : Lexer :=
  { l with ahead := l.ahead.insertIdx (position - l.taken) t }

/-- A token of some characters. -/
def emitMark (t : Token) (length : Nat) (l : Lexer) : Lexer :=
  { l with cursor := l.cursor.skip length }.emit t

/-! ## Possible keys -/

/-- Forgets the possible keys that lie too far back. -/
def dropStale (l : Lexer) : Except Fault Lexer :=
  let isStale (k : KeyStart) : Bool := k.line != l.cursor.line || 1024 < l.cursor.index - k.index
  if l.keys.any fun k => isStale k.2 && k.2.required then .error .malformed
  else .ok { l with keys := l.keys.filter fun k => !isStale k.2 }

/-- Forgets the possible key between the present brackets. -/
def dropKey (l : Lexer) : Except Fault Lexer :=
  match l.keys.lookup l.flow with
  | none => .ok l
  | some k =>
    if k.required then .error .malformed
    else .ok { l with keys := l.keys.filter (·.1 != l.flow) }

/-- Remembers that a key may begin here. -/
def saveKey (l : Lexer) : Except Fault Lexer :=
  if l.allowKey then do
    let l ← l.dropKey
    let c := l.cursor
    let required := l.flow == 0 && l.indent == (c.column : Int)
    return { l with keys := (l.flow, ⟨l.count, required, c.index, c.line, c.column⟩) :: l.keys }
  else .ok l

def setAllow (allow : Bool) (l : Lexer) : Lexer :=
  { l with allowKey := allow }

/-! ## Indentation -/

/-- Closes blocks that are open to the right of a column. -/
def closeBlocks (column : Int) : List Int → Lexer → Lexer
  | [], l => l
  | o :: outer, l =>
    if column < l.indent then
      closeBlocks column outer ({ l with indent := o, outer := outer }.emit .blockEnd)
    else l

/-- The same outside of brackets; inside, indentation does not count. -/
def unwind (column : Int) (l : Lexer) : Lexer :=
  if l.flow = 0 then closeBlocks column l.outer l else l

/-- Opens a block at a column, unless one is open there or to the right of it. -/
def openBlock (column : Nat) (t : Token) (position : Nat) (l : Lexer) : Lexer :=
  if l.indent < column then
    { l with indent := column, outer := l.indent :: l.outer }.insert position t
  else l

/-- Opens a block of the given kind where it begins with an entry, which only some places admit. -/
def openEntry (t : Token) (l : Lexer) : Except Fault Lexer :=
  if l.flow ≠ 0 then .ok l
  else if l.allowKey then .ok (l.openBlock l.cursor.column t l.count)
  else .error .malformed

/-! ## Single tokens -/

/-- The position of the next token, past spaces, comments and line ends. -/
def toNext : Nat → Lexer → Lexer
  | 0, l => l
  | more + 1, l =>
    let c := l.cursor.skipSpaces
    let c := if c.head == '#' then c.skipWhile (!isBreak ·) else c
    if isBreak c.head then
      toNext more { l with cursor := c.takeBreak.2, allowKey := l.allowKey || l.flow == 0 }
    else { l with cursor := c }

def isNameChar (c : Char) : Bool :=
  c.isAlphanum || c == '-' || c == '_'

def takeVersion (c : Cursor) : Except Fault (Nat × Cursor) :=
  let (digits, c) := c.span Char.isDigit
  if digits.isEmpty || c.atCut then .error .malformed
  else if Numeral.maxDigits < digits.length then .error .badNumber
  else .ok (Numeral.ofDigits digits, c)

/-- A tag handle: one exclamation mark, or a name between two. -/
def takeHandle (c : Cursor) : Except Fault (List Char × Cursor) :=
  if c.head ≠ '!' then .error .malformed
  else if c.peek 1 == ' ' then .ok (['!'], c.next)
  else
    let (name, after) := c.next.span isNameChar
    if after.head == '!' then .ok ('!' :: name ++ ['!'], after.next) else .error .malformed

/-- Bytes given by number, two digits after each percent sign. -/
def takeEscapedBytes : Nat → ByteArray → Cursor → Except Fault (ByteArray × Cursor)
  | 0, bytes, c => .ok (bytes, c)
  | more + 1, bytes, c =>
    if c.head == '%' then
      let digits := c.next.rest.take 2
      if digits.length = 2 ∧ digits.all (Numeral.isDigitIn 16) then
        takeEscapedBytes more (bytes.push (Numeral.ofDigitsIn 16 digits).toUInt8) (c.skip 3)
      else .error .malformed
    else .ok (bytes, c)

def isTagChar (c : Char) : Bool :=
  c.isAlphanum || "-;/?:@&=+$,_.!~*'()[]%".contains c

/-- The characters of a tag name, some of them given by number. -/
def takeTagName : Nat → List Char → Cursor → Except Fault (List Char × Cursor)
  | 0, name, c => .ok (name, c)
  | more + 1, name, c =>
    if c.head == '%' then do
      let (bytes, c) ← takeEscapedBytes c.left .empty c
      match String.fromUTF8? bytes with
      | some text => takeTagName more (name ++ text.toList) c
      | none => .error .malformed
    else if isTagChar c.head then takeTagName more (name ++ [c.head]) c.next
    else if name.isEmpty then .error .malformed
    else .ok (name, c)

def takeTagUri (c : Cursor) : Except Fault (List Char × Cursor) :=
  takeTagName (c.left + 1) [] c

def takeDirective (c : Cursor) : Except Fault (Directive × Cursor) := do
  let (name, c) := c.next.span isNameChar
  if name.isEmpty || !isSpaceOrEnd c.head then throw .malformed
  if name == "YAML".toList then
    let (major, c) ← takeVersion c.skipSpaces
    if c.head ≠ '.' then throw .malformed
    let (minor, c) ← takeVersion c.next
    if !isSpaceOrEnd c.head then throw .malformed
    return (.version major minor, ← c.skipLineEnd)
  else if name == "TAG".toList then
    let (handle, c) ← takeHandle c.skipSpaces
    if c.head ≠ ' ' then throw .malformed
    let (start, c) ← takeTagUri c.skipSpaces
    if !isSpaceOrEnd c.head then throw .malformed
    return (.tag handle start, ← c.skipLineEnd)
  else return (.unknown, ← (c.skipWhile (!isBreak ·)).skipLineEnd)

def takeAnchor (c : Cursor) : Except Fault (List Char × Cursor) :=
  let (name, c) := c.next.span isNameChar
  if name.isEmpty then .error .malformed
  else if isBlankOrEnd c.head || "?:,]\x7d%@\x60".contains c.head then .ok (name, c)
  else .error .malformed

/-- A tag: between angle brackets in full, alone, or with a handle in front. -/
def takeTag (c : Cursor) : Except Fault (Token × Cursor) := do
  let (t, c) ←
    if c.peek 1 == '<' then do
      let (name, c) ← takeTagUri (c.skip 2)
      if c.head ≠ '>' then throw .malformed
      pure (Token.tag none name, c.next)
    else if isBlankOrEnd (c.peek 1) then pure (Token.tag none ['!'], c.next)
    else
      let word := c.next.rest.takeWhile (!isSpaceOrEnd ·)
      let (handle, c) ← if word.contains '!' then takeHandle c else pure (['!'], c.next)
      let (suffix, c) ← takeTagUri c
      pure (Token.tag (some handle) suffix, c)
  if isSpaceOrEnd c.head then return (t, c) else throw .malformed

def startsPlain (inFlow : Bool) (c : Cursor) : Bool :=
  let ch := c.head
  !(isBlankOrEnd ch || "-?:,[]\x7b\x7d#&*!|>'\"%@\x60".contains ch) ||
    (!isBlankOrEnd (c.peek 1) && (ch == '-' || (!inFlow && (ch == '?' || ch == ':'))))

/-! ## Steps -/

/-- A directive or document mark: everything that is open ends. -/
def atTop (l : Lexer) : Except Fault Lexer := do
  return (← (l.unwind (-1)).dropKey).setAllow false

def openFlow (t : Token) (l : Lexer) : Except Fault Lexer := do
  let l ← l.saveKey
  return { l with flow := l.flow + 1, allowKey := true }.emitMark t 1

def closeFlow (t : Token) (l : Lexer) : Except Fault Lexer := do
  let l ← l.dropKey
  return { l with flow := l.flow - 1, allowKey := false }.emitMark t 1

/-- A colon: what was remembered is a key now, or else a key without a text begins here. -/
def colon (l : Lexer) : Except Fault Lexer :=
  match l.keys.lookup l.flow with
  | some k =>
    let l := { l with keys := l.keys.filter (·.1 != l.flow) }.insert k.token .key
    let l := if l.flow = 0 then l.openBlock k.column .blockMappingStart k.token else l
    .ok ((l.setAllow false).emitMark .value 1)
  | none => do
    let l ← l.openEntry .blockMappingStart
    return (l.setAllow (l.flow == 0)).emitMark .value 1

/-- Something that may be a key itself: an alias, an anchor, a tag or a scalar. -/
def keyed (take : Cursor → Except Fault (Token × Cursor)) (l : Lexer) : Except Fault Lexer := do
  let l ← l.saveKey
  let (t, c) ← take l.cursor
  return { l with cursor := c, allowKey := false }.emit t

def plain (l : Lexer) : Except Fault Lexer := do
  let l ← l.saveKey
  let c := l.cursor
  let (text, c, broken) := plainScalar (l.flow != 0) (l.indent + 1) (c.left + 1) [] [] false c
  return { l with cursor := c, allowKey := broken }.emit (.scalar text true)

def block (folded : Bool) (l : Lexer) : Except Fault Lexer := do
  let l ← (l.setAllow true).dropKey
  let (text, c) ← blockScalar folded l.indent l.cursor
  return { l with cursor := c }.emit (.scalar text false)

def quoted (double : Bool) : Lexer → Except Fault Lexer :=
  keyed fun c => do
    let (text, c) ← quotedScalar double c
    return (.scalar text false, c)

/-- Finds the token that begins at the present position. -/
def token (l : Lexer) : Except Fault Lexer :=
  let c := l.cursor
  let ch := c.head
  let blankNext := isBlankOrEnd (c.peek 1)
  let inFlow := l.flow != 0
  if ch == '%' && c.column == 0 then do
    let l ← l.atTop
    let (d, c) ← takeDirective l.cursor
    return { l with cursor := c }.emit (.directive d)
  else if ch == '-' && c.column == 0 && c.atDocumentMark then do
    return (← l.atTop).emitMark .documentStart 3
  else if ch == '.' && c.column == 0 && c.atDocumentMark then do
    return (← l.atTop).emitMark .documentEnd 3
  else if ch == '[' then l.openFlow .flowSequenceStart
  else if ch == '\x7b' then l.openFlow .flowMappingStart
  else if ch == ']' then l.closeFlow .flowSequenceEnd
  else if ch == '\x7d' then l.closeFlow .flowMappingEnd
  else if ch == ',' then do
    return (← (l.setAllow true).dropKey).emitMark .flowEntry 1
  else if ch == '-' && blankNext then do
    let l ← l.openEntry .blockSequenceStart
    return (← (l.setAllow true).dropKey).emitMark .blockEntry 1
  else if ch == '?' && (inFlow || blankNext) then do
    let l ← l.openEntry .blockMappingStart
    return (← (l.setAllow (!inFlow)).dropKey).emitMark .key 1
  else if ch == ':' && (inFlow || blankNext) then l.colon
  else if ch == '*' then l.keyed fun c => (takeAnchor c).map fun (name, c) => (.alias name, c)
  else if ch == '&' then l.keyed fun c => (takeAnchor c).map fun (name, c) => (.anchor name, c)
  else if ch == '!' then l.keyed takeTag
  else if ch == '|' && !inFlow then l.block false
  else if ch == '>' && !inFlow then l.block true
  else if ch == '\x27' then l.quoted false
  else if ch == '\x22' then l.quoted true
  else if startsPlain inFlow c then l.plain
  else .error .malformed

/-- The end of the text: everything that is open ends. -/
def finish (l : Lexer) : Except Fault Lexer :=
  if l.cursor.isCut then .error .malformed
  else do
    let l ← (l.unwind (-1)).dropKey
    return { l.emit .streamEnd with keys := [], allowKey := false, isDone := true }

/-- Finds the next token, with the blocks that end before it. -/
def fetch (l : Lexer) : Except Fault Lexer := do
  let l ← (l.toNext (l.cursor.left + 1)).dropStale
  let l := l.unwind l.cursor.column
  if l.cursor.rest.isEmpty then l.finish else l.token

/-- Whether the first token ahead may still turn out to be a key. -/
def isOpen (l : Lexer) : Bool :=
  l.keys.any fun k => k.2.token == l.taken

/-- Finds tokens until the first one ahead is certain. -/
def ready : Nat → Lexer → Except Fault Lexer
  | 0, _ => .error .malformed
  | more + 1, l =>
    if l.isDone then .ok l
    else if l.ahead.isEmpty then do ready more (← l.fetch)
    else do
      let l ← l.dropStale
      if l.isOpen then ready more (← l.fetch) else return l

def peek (l : Lexer) : Except Fault (Token × Lexer) := do
  let l ← l.ready (l.cursor.left + 3)
  match l.ahead with
  | t :: _ => return (t, l)
  | [] => throw .malformed

def take (l : Lexer) : Lexer :=
  { l with ahead := l.ahead.tail, taken := l.taken + 1 }

end Lexer
end Wireform.Yaml
