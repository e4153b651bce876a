import Wireform.Double.Decimal
import Wireform.Text.Character
import Wireform.Text.Pattern

/-!
# Decimal literals of doubles

The pattern of the numbers that a lenient reader looks for, and the double of a whole text. A whole text may have
white space around it, digits of all scripts, underscores between digits, and words for what is no finite number
in letters of both cases.
-/
namespace Wireform.Double

open Text (Pattern)

def isSign (c : Char) : Bool :=
  c == '+' || c == '-'

def isExponentMark (c : Char) : Bool :=
  c == 'e' || c == 'E'

def isPoint (c : Char) : Bool :=
  c == '.'

def exponentPattern : Pattern :=
  .seq (.one isExponentMark) (.seq (.opt (.one isSign)) (.atLeastOne Char.isDigit))

def pointPattern : Pattern :=
  .alt (.seq (.atLeastOne Char.isDigit) (.seq (.opt (.one isPoint)) (.many Char.isDigit)))
    (.seq (.one isPoint) (.atLeastOne Char.isDigit))

/-- The word for infinity or a decimal literal. -/
def sizePattern : Pattern :=
  .alt (.word infinityWord) (.seq pointPattern (.opt exponentPattern))

/-- A sign if there is one, and a number without a sign. -/
def numberPattern : Pattern :=
  .seq (.opt (.one isSign)) sizePattern

/-- A text without its underscores, each of which has to stand between two digits. The character is the one
before the text. -/
def dropUnderscores? : Char → List Char → Option (List Char)
  | before, [] => if before = '_' then none else some []
  | before, c :: cs =>
    if c = '_' then if before.isDigit then dropUnderscores? c cs else none
    else if before = '_' && !c.isDigit then none
    else (dropUnderscores? c cs).map (c :: ·)

/-- The double of a whole text. -/
def ofText? (cs : List Char) : Option Double :=
  match dropUnderscores? ' ' (Text.numberText cs) with
  | none => none
  | some plain =>
    let (negative, rest) := Numeral.takeSign plain
    let word := rest.map Char.toLower
    if word = "inf".toList ∨ word = "infinity".toList then some (infinite negative)
    else if word = "nan".toList then some nan
    else
      match takeUnsigned? negative rest with
      | some (x, []) => some x
      | _ => none

end Wireform.Double
