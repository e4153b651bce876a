/-!
# Numerals

Decimal and hexadecimal texts of integers. A decimal text of more than `maxDigits` digits is neither
written nor read; hexadecimal texts have no such limit.
-/
namespace Wireform.Numeral

-- Powers are the ones of the core, whatever algebra is imported beside them.
attribute [instance (20000)] instPowNat instNatPowNat Int.instNatPow
attribute [default_instance 20000] instPowNat

/-- The most digits that a decimal text may have. -/
def maxDigits : Nat := 4300

/-- The least number whose decimal text is too long. -/
def tooLarge : Nat := 10 ^ maxDigits

/-- The decimal text of an integer, unless it is too long. -/
def decimal? (n : Int) : Option String :=
  if n.natAbs < tooLarge then some (toString n) else none

/-- The digits of a natural, with zeros in front up to the given width. -/
def padded (width n : Nat) : List Char :=
  let digits := Nat.toDigits 10 n
  List.replicate (width - digits.length) '0' ++ digits

def ofDigits (digits : List Char) : Nat :=
  Nat.ofDigitChars 10 digits 0

/-- The value of a digit in the given base, letters of both cases included. -/
def digit? (base : Nat) (c : Char) : Option Nat :=
  let n := c.toNat
  let value :=
    if 48 ≤ n && n ≤ 57 then n - 48
    else if 97 ≤ n && n ≤ 122 then n - 87
    else if 65 ≤ n && n ≤ 90 then n - 55
    else base
  if value < base then some value else none

def isDigitIn (base : Nat) (c : Char) : Bool :=
  (digit? base c).isSome

/-- The number that a run of digits denotes in the given base. Other characters count as zero. -/
def ofDigitsIn (base : Nat) (digits : List Char) : Nat :=
  digits.foldl (fun n c => base * n + (digit? base c).getD 0) 0

/-- A sign and a magnitude as one integer. -/
def signed (negative : Bool) (n : Nat) : Int :=
  if negative then -(n : Int) else n

/-- A leading sign, taken off. -/
def takeSign : List Char → Bool × List Char
  | '-' :: cs => (true, cs)
  | '+' :: cs => (false, cs)
  | cs => (false, cs)

end Wireform.Numeral
