import Wireform.Double.Basic
import Wireform.Numeral

/-!
# Doubles in decimal

Reading takes the longest leading decimal literal and rounds its exact value. Writing takes the fewest
digits that read back to the same double, the nearest such digits where there are several.
-/
namespace Wireform.Double

/-- The double nearest to `digits * 10 ^ exponent`. The two outer cases answer without forming a power:
the value is beyond the largest double, or below half of the least one. -/
def ofDecimal (negative : Bool) (digits : Nat) (exponent : Int) : Double :=
  if digits = 0 then zero negative
  else if 309 ≤ exponent then infinite negative
  else if exponent + digits.log2 + 325 ≤ 0 then zero negative
  else nearest negative (digits * 10 ^ exponent.toNat) (10 ^ (-exponent).toNat)

def takeDigits (cs : List Char) : List Char × List Char :=
  (cs.takeWhile Char.isDigit, cs.dropWhile Char.isDigit)

/-- An exponent mark, an optional sign and digits; `none` if any of it is missing. -/
def takeExponent? : List Char → Option (Int × List Char)
  | c :: cs =>
    if c == 'e' || c == 'E' then
      let (negative, rest) := Numeral.takeSign cs
      let (digits, rest) := takeDigits rest
      if digits.isEmpty then none else some (Numeral.signed negative (Numeral.ofDigits digits), rest)
    else none
  | [] => none

/-- Digits with at most one point among them, at least one digit in all: the whole part, the fraction,
and the text after both. -/
def takePoint? (cs : List Char) : Option (List Char × List Char × List Char) :=
  let (whole, rest) := takeDigits cs
  match rest with
  | '.' :: rest =>
    let (fraction, rest) := takeDigits rest
    if whole.isEmpty && fraction.isEmpty then none else some (whole, fraction, rest)
  | rest => if whole.isEmpty then none else some (whole, [], rest)

/-- The longest decimal literal without a sign at the start of a text, with the text after it. -/
def takeUnsigned? (negative : Bool) (cs : List Char) : Option (Double × List Char) :=
  match takePoint? cs with
  | none => none
  | some (whole, fraction, rest) =>
    let (exponent, rest) := (takeExponent? rest).getD (0, rest)
    some (ofDecimal negative (Numeral.ofDigits (whole ++ fraction)) (exponent - fraction.length), rest)

def infinityWord : List Char := "Infinity".toList

/-- The longest number at the start of a text: an optional sign, then the word for infinity or a decimal
literal. -/
def takeNumber? (cs : List Char) : Option (Double × List Char) :=
  let (negative, rest) := Numeral.takeSign cs
  if infinityWord.isPrefixOf rest then some (infinite negative, rest.drop infinityWord.length)
  else takeUnsigned? negative rest

/-- The largest `k` with `10 ^ k ≤ num / den`, for positive `num` and `den`. -/
def floorLog10 (num den : Nat) : Int :=
  if den ≤ num then ((Nat.toDigits 10 (num / den)).length : Int) - 1
  else -((Nat.toDigits 10 ((den - 1) / num)).length : Int)

/-- The neighbours of `num / den` among the multiples of `10 ^ exponent` that read back to `x`, the
nearer one of two, and the even one at a tie. -/
def readsBack? (x : Double) (negative : Bool) (num den : Nat) (exponent : Int) : Option Nat :=
  let unit := den * 10 ^ exponent.toNat
  let scaled := num * 10 ^ (-exponent).toNat
  let below := scaled / unit
  let rest := scaled % unit
  let lower := ofDecimal negative below exponent == x
  let upper := ofDecimal negative (below + 1) exponent == x
  if lower && upper then
    some (if 2 * rest < unit || (2 * rest == unit && below % 2 == 0) then below else below + 1)
  else if lower then some below
  else if upper then some (below + 1)
  else none

/-- Tries grids of ten, finer by one digit each time, until one has a point that reads back. -/
def searchGrid (x : Double) (negative : Bool) (num den : Nat) : Nat → Int → Nat × Int
  | 0, exponent => (num * 10 ^ (-exponent).toNat / (den * 10 ^ exponent.toNat), exponent)
  | more + 1, exponent =>
    match readsBack? x negative num den exponent with
    | some digits => (digits, exponent)
    | none => searchGrid x negative num den more (exponent - 1)

/-- Takes the zeros off the end of a run of digits, counting them into the exponent. -/
def dropZeros : Nat → Nat → Int → Nat × Int
  | 0, digits, exponent => (digits, exponent)
  | more + 1, digits, exponent =>
    if digits % 10 = 0 then dropZeros more (digits / 10) (exponent + 1) else (digits, exponent)

/-- The fewest digits that read back to a positive finite double, and the power of ten of the last one.
Seventeen always suffice. -/
def shortest (negative : Bool) (mantissa : Nat) (exponent : Int)
    (canonical : Canonical mantissa exponent) : Nat × Int :=
  let n := num mantissa exponent
  let d := den exponent
  let (digits, k) :=
    searchGrid (.finite negative mantissa exponent canonical) negative n d 17 (floorLog10 n d)
  dropZeros 17 digits k

def withSign (negative : Bool) (cs : List Char) : List Char :=
  if negative then '-' :: cs else cs

/-- Digits without an exponent: zeros are put in wherever the power of ten asks for them. -/
def positional (digits : List Char) (exponent : Int) : List Char :=
  if 0 ≤ exponent then digits ++ List.replicate exponent.toNat '0'
  else
    let places := (-exponent).toNat
    if places < digits.length then
      digits.take (digits.length - places) ++ '.' :: digits.drop (digits.length - places)
    else '0' :: '.' :: List.replicate (places - digits.length) '0' ++ digits

/-- Digits with a point after the first one and a power of ten of at least two digits. -/
def scientific (digits : List Char) (power : Int) : List Char :=
  let tail := digits.drop 1
  digits.take 1 ++ (if tail.isEmpty then [] else '.' :: tail) ++
    'e' :: (if power < 0 then '-' else '+') :: Numeral.padded 2 power.natAbs

/-- The exact text of a finite double: positional with a fraction digit for powers of ten from -4 to
15, scientific otherwise. -/
def exactText (negative : Bool) (mantissa : Nat) (exponent : Int)
    (canonical : Canonical mantissa exponent) : List Char :=
  if mantissa = 0 then withSign negative ['0', '.', '0']
  else
    let (n, k) := shortest negative mantissa exponent canonical
    let digits := Nat.toDigits 10 n
    let power := k + digits.length - 1
    withSign negative <|
      if -4 ≤ power ∧ power < 16 then
        if 0 ≤ k then positional digits k ++ ['.', '0'] else positional digits k
      else scientific digits power

/-- The text of a double from which it can be read back. -/
def written : Double → String
  | nan => "nan"
  | infinite negative => if negative then "-inf" else "inf"
  | finite negative m e h => String.ofList (exactText negative m e h)

/-- The same in the spelling of JSON. -/
def json : Double → String
  | nan => "NaN"
  | infinite negative => if negative then "-Infinity" else "Infinity"
  | x => x.written

/-- The least double that is shown without an exponent, the one nearest to a millionth. -/
def leastPositional : Double := nearest false 1 1000000

/-- The first whole number that is shown with an exponent. -/
def firstScientific : Nat := 10 ^ 21

/-- The text of a number for a reader: whole numbers below 10^21 have no fraction, and a magnitude from
a millionth up to 10^21 has no exponent. -/
def text : Double → String
  | nan => "NaN"
  | infinite negative => if negative then "-Infinity" else "Infinity"
  | finite negative m e h =>
    let x := finite negative m e h
    match x.toInt? with
    | some n => if n.natAbs < firstScientific then toString n else x.written
    | none =>
      if leastPositional.absLe x then
        let (digits, k) := shortest negative m e h
        String.ofList (withSign negative (positional (Nat.toDigits 10 digits) k))
      else x.written

end Wireform.Double
