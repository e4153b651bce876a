import Wireform.Numeral
import Wireform.Yaml.Cursor

/-!
# Texts of scalars

The text of a scalar in its three ways of writing: plain, between quotes, and as an indented block. Line
breaks inside are folded: a single one becomes a space, and of several the first one is dropped. While a
text is read, what was read of it stands with its last character first.
-/
namespace Wireform.Yaml

/-! ## Plain scalars -/

/-- The end of a run of plain characters; the second argument is the character after. -/
def endsPlain (inFlow : Bool) (c next : Char) : Bool :=
  isBlankOrEnd c ||
    (c == ':' && (isBlankOrEnd next || (inFlow && ",[]\x7b\x7d".contains next))) ||
    (inFlow && ",?[]\x7b\x7d".contains c)

/-- The longest run of plain characters. -/
def plainRun (inFlow : Bool) : List Char → List Char
  | [] => []
  | c :: cs => if endsPlain inFlow c (cs.headD endMark) then [] else c :: plainRun inFlow cs

/-- Spaces and breaks between the lines of a plain scalar: the breaks, and where the text goes on; nothing
goes on after a document mark. -/
def plainBreaks : Nat → List Char → Cursor → Option (List Char × Cursor) × Cursor
  | 0, breaks, c => (some (breaks.reverse, c), c)
  | more + 1, breaks, c =>
    if c.head == ' ' then plainBreaks more breaks c.next
    else if isBreak c.head then
      let (text, c) := c.takeBreak
      if c.atDocumentMark then (none, c) else plainBreaks more (text.reverse ++ breaks) c
    else (some (breaks.reverse, c), c)

/-- One break followed by others: a line feed is folded into a space if it stands alone, and left out
before others. -/
def foldBreaks (first others : List Char) : List Char :=
  if first != ['\n'] then first ++ others
  else if others.isEmpty then [' ']
  else others

/-- What stands between two runs of a plain scalar, and whether it holds a line break. -/
def plainGap (c : Cursor) : List Char × Cursor × Bool :=
  let (spaces, c) := c.span (· == ' ')
  if isBreak c.head then
    let (first, c) := c.takeBreak
    if c.atDocumentMark then ([], c, true)
    else
      match plainBreaks c.left [] c with
      | (some (others, c), _) => (foldBreaks first others, c, true)
      | (none, c) => ([], c, true)
  else (spaces, c, false)

/-- A plain scalar from its first run on: the text, the position after it, and whether a line was ended
last. -/
def plainScalar (inFlow : Bool) (indent : Int) :
    Nat → List Char → List Char → Bool → Cursor → List Char × Cursor × Bool
  | 0, text, _, broken, c => (text.reverse, c, broken)
  | more + 1, text, gap, broken, c =>
    let run := if c.head == '#' then [] else plainRun inFlow c.rest
    if run.isEmpty then (text.reverse, c, broken)
    else
      let text := run.reverse ++ (gap.reverse ++ text)
      let (gap, c, broken) := plainGap (c.skip run.length)
      if gap.isEmpty || c.head == '#' || (!inFlow && (c.column : Int) < indent) then
        (text.reverse, c, broken)
      else plainScalar inFlow indent more text gap broken c

/-! ## Quoted scalars -/

def escapes : List (Char × Char) :=
  [('0', '\x00'), ('a', '\x07'), ('b', '\x08'), ('t', '\t'), ('\t', '\t'), ('n', '\n'),
    ('v', '\x0b'), ('f', '\x0c'), ('r', '\r'), ('e', '\x1b'), (' ', ' '), ('\x22', '\x22'),
    ('\\', '\\'), ('/', '/'), ('N', '\x85'), ('_', '\xa0'), ('L', '\u2028'), ('P', '\u2029')]

def escapeWidths : List (Char × Nat) :=
  [('x', 2), ('u', 4), ('U', 8)]

def characterOf (n : Nat) : Except Fault Char :=
  if 2 ^ 31 ≤ n then .error .oversizedEscape
  else if 0x110000 ≤ n then .error .noCharacter
  else if n.isValidChar then .ok (Char.ofNat n)
  else .ok '\uFFFD'

/-- A character by its number in the given count of digits. -/
def numberedEscape (width : Nat) (c : Cursor) : Except Fault (Char × Cursor) :=
  let digits := c.rest.take width
  if digits.length = width ∧ digits.all (Numeral.isDigitIn 16) then
    (characterOf (Numeral.ofDigitsIn 16 digits)).map (·, c.skip width)
  else .error .malformed

/-- Breaks with blanks around them inside quotes. A document mark is out of place there. -/
def quotedBreaks : Nat → List Char → Cursor → Except Fault (List Char × Cursor)
  | 0, breaks, c => .ok (breaks.reverse, c)
  | more + 1, breaks, c =>
    if c.atDocumentMark then .error .malformed
    else
      let c := c.skipWhile fun ch => ch == ' ' || ch == '\t'
      if isBreak c.head then
        let (text, c) := c.takeBreak
        quotedBreaks more (text.reverse ++ breaks) c
      else .ok (breaks.reverse, c)

/-- Characters between quotes up to a blank, a break or the closing quote. -/
def quotedRun (double : Bool) : Nat → List Char → Cursor → Except Fault (List Char × Cursor)
  | 0, text, c => .ok (text, c)
  | more + 1, text, c =>
    let ch := c.head
    if isBlankOrEnd ch then .ok (text, c)
    else if ch == '\x27' && !double then
      if c.peek 1 == '\x27' then quotedRun double more ('\x27' :: text) (c.skip 2)
      else .ok (text, c)
    else if ch == '\x22' && double then .ok (text, c)
    else if ch == '\\' && double then
      let c := c.next
      match escapes.lookup c.head with
      | some escaped => quotedRun double more (escaped :: text) c.next
      | none =>
        match escapeWidths.lookup c.head with
        | some width => do
          let (escaped, c) ← numberedEscape width c.next
          quotedRun double more (escaped :: text) c
        | none =>
          if isBreak c.head then do
            let (breaks, c) ← quotedBreaks c.left [] c.takeBreak.2
            quotedRun double more (breaks.reverse ++ text) c
          else .error .malformed
    else
      let (run, c) := c.span fun ch =>
        !(isBlankOrEnd ch || ch == '\x27' || ch == '\x22' || ch == '\\')
      if run.isEmpty then quotedRun double more (ch :: text) c.next
      else quotedRun double more (run.reverse ++ text) c

/-- Blanks between quotes, folded if there is a break among them. -/
def quotedGap (c : Cursor) : Except Fault (List Char × Cursor) :=
  let (blanks, c) := c.span fun ch => ch == ' ' || ch == '\t'
  if c.rest.isEmpty then .error .malformed
  else if isBreak c.head then do
    let (first, c) := c.takeBreak
    let (others, c) ← quotedBreaks (c.left + 1) [] c
    return (foldBreaks first others, c)
  else return (blanks, c)

/-- The rest of a quoted scalar, to the closing quote. -/
def quotedRest (double : Bool) : Nat → List Char → Cursor → Except Fault (List Char × Cursor)
  | 0, _, _ => .error .malformed
  | more + 1, text, c =>
    if c.head == (if double then '\x22' else '\x27') then .ok (text.reverse, c.next)
    else do
      let (gap, c) ← quotedGap c
      let (text, c) ← quotedRun double (c.left + 1) (gap.reverse ++ text) c
      quotedRest double more text c

def quotedScalar (double : Bool) (c : Cursor) : Except Fault (List Char × Cursor) := do
  let c := c.next
  let (text, c) ← quotedRun double (c.left + 1) [] c
  quotedRest double (c.left + 1) text c

/-! ## Block scalars -/

/-- What becomes of the breaks at the end of a block. -/
inductive Chomping
  | clip
  | strip
  | keep
deriving DecidableEq

def chomping? (c : Char) : Option Chomping :=
  if c == '+' then some .keep else if c == '-' then some .strip else none

/-- The marks after the sign of a block: how its end is treated, and the indentation if it is given. -/
def blockMarks (c : Cursor) : Except Fault (Chomping × Option Nat × Cursor) :=
  let digit (c : Cursor) : Except Fault (Option Nat × Cursor) :=
    if c.head.isDigit then
      if c.head == '0' then .error .malformed
      else .ok (some (c.head.toNat - 48), c.next)
    else .ok (none, c)
  let marks : Except Fault (Chomping × Option Nat × Cursor) :=
    match chomping? c.head with
    | some chomping => do
      let (indent, c) ← digit c.next
      return (chomping, indent, c)
    | none => do
      let (indent, c) ← digit c
      match indent, chomping? c.head with
      | some _, some chomping => return (chomping, indent, c.next)
      | _, _ => return (.clip, indent, c)
  marks.bind fun (chomping, indent, c) =>
    if isSpaceOrEnd c.head then .ok (chomping, indent, c) else .error .malformed

/-- The empty lines in front of a block whose indentation is not given, and the deepest column in them. -/
def blockIndentation : Nat → List Char → Nat → Cursor → List Char × Nat × Cursor
  | 0, breaks, deepest, c => (breaks.reverse, deepest, c)
  | more + 1, breaks, deepest, c =>
    if c.head == ' ' then
      let c := c.next
      blockIndentation more breaks (max deepest c.column) c
    else if isBreak c.head then
      let (text, c) := c.takeBreak
      blockIndentation more (text.reverse ++ breaks) deepest c
    else (breaks.reverse, deepest, c)

/-- The position after spaces, up to a column. -/
def indentTo (column : Nat) (c : Cursor) : Cursor :=
  c.skip (min (column - c.column) (c.rest.takeWhile (· == ' ')).length)

/-- The empty lines of a block. -/
def blockBreaks (indent : Nat) : Nat → List Char → Cursor → List Char × Cursor
  | 0, breaks, c => (breaks.reverse, c)
  | more + 1, breaks, c =>
    let c := indentTo indent c
    if isBreak c.head then
      let (text, c) := c.takeBreak
      blockBreaks indent more (text.reverse ++ breaks) c
    else (breaks.reverse, c)

def isBlank (c : Char) : Bool := c == ' ' || c == '\t'

/-- The lines of a block from the first that is not empty: its text, the last break, and the empty lines
after it. -/
def blockLines (folded : Bool) (indent : Nat) :
    Nat → List Char → List Char → List Char → Cursor → List Char × List Char × List Char × Cursor
  | 0, text, last, breaks, c => (text.reverse, last, breaks, c)
  | more + 1, text, last, breaks, c =>
    if c.column == indent && !c.rest.isEmpty then
      let indented := isBlank c.head
      let (line, c) := c.span (!isBreak ·)
      let text := line.reverse ++ (breaks.reverse ++ text)
      let (last, c) := c.takeBreak
      let (breaks, c) := blockBreaks indent (c.left + 1) [] c
      if c.column == indent && !c.rest.isEmpty then
        let joint :=
          if folded && last == ['\n'] && !indented && !isBlank c.head then
            if breaks.isEmpty then [' '] else []
          else last
        blockLines folded indent more (joint.reverse ++ text) last breaks c
      else (text.reverse, last, breaks, c)
    else (text.reverse, last, breaks, c)

/-- A block scalar from its sign on, inside of the given indentation. -/
def blockScalar (folded : Bool) (outer : Int) (c : Cursor) : Except Fault (List Char × Cursor) := do
  let (chomping, given, c) ← blockMarks c.next
  let c ← c.skipLineEnd
  let least := (max (outer + 1) 1).toNat
  let (indent, breaks, c) :=
    match given with
    | some n =>
      let indent := least + n - 1
      let (breaks, c) := blockBreaks indent (c.left + 1) [] c
      (indent, breaks, c)
    | none =>
      let (breaks, deepest, c) := blockIndentation (c.left + 1) [] 0 c
      (max least deepest, breaks, c)
  let (text, last, breaks, c) := blockLines folded indent (c.left + 1) [] [] breaks c
  match chomping with
  | .strip => return (text, c)
  | .clip => return (text ++ last, c)
  | .keep => return (text ++ last ++ breaks, c)

end Wireform.Yaml
