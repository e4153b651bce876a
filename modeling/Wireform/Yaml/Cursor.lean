/-!
# Reading positions

A YAML text as a run of characters, and a position in it with its line and column. The end of the text
shows as a null character, which no text may contain. A text is taken in portions, and a portion with a
character that is not allowed ends it before its time: what comes earlier is read all the same.
-/
namespace Wireform.Yaml

/-- The ways in which a text fails to be a document. -/
inductive Fault
  /-- The text breaks a rule of the format, or has a tag without a meaning. -/
  | malformed
  /-- A number is no number of its kind, or has too many digits. -/
  | badNumber
  | emptyNumber
  | badTruth
  /-- A time has fields out of range. -/
  | impossibleTime
  | badTime
  /-- A time is given as a mapping. -/
  | nestedTime
  /-- The place of a digit in base sixty is worth more than any float. -/
  | oversizedPlace
  /-- An escape names no character. -/
  | noCharacter
  /-- An escape has a number beyond 31 bits. -/
  | oversizedEscape
deriving DecidableEq

/-- What a look past the end shows. -/
def endMark : Char := '\x00'

/-- The characters that end a line. Returns are made into line feeds before anything is read. -/
def isBreak (c : Char) : Bool :=
  c == '\n' || c == '\x85' || c == '\u2028' || c == '\u2029'

def isBreakOrEnd (c : Char) : Bool :=
  c == endMark || isBreak c

/-- A break, the end or a space. -/
def isSpaceOrEnd (c : Char) : Bool :=
  c == ' ' || isBreakOrEnd c

/-- A break, the end, a space or a tab. -/
def isBlankOrEnd (c : Char) : Bool :=
  c == '\t' || isSpaceOrEnd c

def isAllowed (c : Char) : Bool :=
  let n := c.toNat
  n == 9 || n == 10 || n == 13 || (0x20 ≤ n && n ≤ 0x7e) || n == 0x85 ||
    (0xa0 ≤ n && n ≤ 0xd7ff) || (0xe000 ≤ n && n ≤ 0xfffd) || 0x10000 ≤ n

/-- The text with every return, alone or before a line feed, made a line feed. -/
def unifyReturns : List Char → List Char
  | '\r' :: '\n' :: cs => '\n' :: unifyReturns cs
  | '\r' :: cs => '\n' :: unifyReturns cs
  | c :: cs => c :: unifyReturns cs
  | [] => []

/-! ## Portions -/

/-- The number of characters in the first portion of a text, and in every later one. -/
def firstPortion : Nat := 8192

def laterPortion : Nat := 4096

/-- The number of characters in portions before the given one. -/
def portionStart (index : Nat) : Nat :=
  if index < firstPortion then 0
  else firstPortion + (index - firstPortion) / laterPortion * laterPortion

/-- The text up to the first portion with a character that is not allowed, and whether there is one. -/
def readable (cs : List Char) : List Char × Bool :=
  match cs.findIdx? (!isAllowed ·) with
  | none => (cs, false)
  | some index => (cs.take (portionStart index), true)

/-! ## Positions -/

/-- A position: the text from there on, the number of characters in the whole text and before the
position, and its place. -/
structure Cursor where
  rest : List Char
  size : Nat
  /-- Whether something follows the text that is not allowed. -/
  isCut : Bool
  index : Nat
  line : Nat
  column : Nat

namespace Cursor

/-- The position at the start of a text. A byte order mark there is passed over. -/
def start (cs : List Char) (isCut : Bool) : Cursor :=
  match cs with
  | '\uFEFF' :: rest => ⟨rest, cs.length, isCut, 1, 0, 0⟩
  | rest => ⟨rest, cs.length, isCut, 0, 0, 0⟩

def left (c : Cursor) : Nat :=
  c.size - c.index

/-- Whether the text ends here before its time. -/
def atCut (c : Cursor) : Bool :=
  c.isCut && c.rest.isEmpty

/-- The character some places ahead. -/
def peek (c : Cursor) (ahead : Nat) : Char :=
  c.rest.getD ahead endMark

def head (c : Cursor) : Char :=
  c.rest.headD endMark

/-- The position after the next character. A byte order mark takes no column. -/
def next (c : Cursor) : Cursor :=
  match c.rest with
  | [] => c
  | ch :: rest =>
    if isBreak ch then { c with rest := rest, index := c.index + 1, line := c.line + 1, column := 0 }
    else
      { c with
        rest := rest
        index := c.index + 1
        column := if ch == '\uFEFF' then c.column else c.column + 1 }

def skip : Nat → Cursor → Cursor
  | 0, c => c
  | n + 1, c => skip n c.next

def span (p : Char → Bool) (c : Cursor) : List Char × Cursor :=
  let run := c.rest.takeWhile p
  (run, c.skip run.length)

def skipWhile (p : Char → Bool) (c : Cursor) : Cursor :=
  (c.span p).2

def skipSpaces (c : Cursor) : Cursor :=
  c.skipWhile (· == ' ')

/-- A line break, if there is one: its text, in which only the line and paragraph separators stay as they
are, and the position after it. -/
def takeBreak (c : Cursor) : List Char × Cursor :=
  let ch := c.head
  if ch == '\n' || ch == '\x85' then (['\n'], c.next)
  else if ch == '\u2028' || ch == '\u2029' then ([ch], c.next)
  else ([], c)

/-- Whether three dashes or dots stand here, alone. -/
def atDocumentMark (c : Cursor) : Bool :=
  (c.rest.take 3 == ['-', '-', '-'] || c.rest.take 3 == ['.', '.', '.']) && isBlankOrEnd (c.peek 3)

/-- The position after a comment, spaces around it and the end of its line. -/
def skipLineEnd (c : Cursor) : Except Fault Cursor :=
  let c := c.skipSpaces
  let c := if c.head == '#' then c.skipWhile (!isBreak ·) else c
  if isBreakOrEnd c.head then .ok c.takeBreak.2 else .error .malformed

end Cursor
end Wireform.Yaml
