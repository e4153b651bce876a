import Wireform.Numeral

/-!
# Double precision numbers

A finite double is a mantissa below 2^53 times a power of two. Every number has one canonical form, so
equality of doubles is equality of values, apart from the two zeros. All arithmetic is exact on quotients
of naturals and ends in one rounding step, `Double.nearest`.
-/
namespace Wireform

/-- The mantissa and exponent of a finite double: as large a mantissa as fits, or the least exponent. -/
def Canonical (mantissa : Nat) (exponent : Int) : Prop :=
  mantissa < 2 ^ 53 ∧ -1074 ≤ exponent ∧ exponent ≤ 971 ∧ (2 ^ 52 ≤ mantissa ∨ exponent = -1074)

instance (mantissa : Nat) (exponent : Int) : Decidable (Canonical mantissa exponent) := by
  unfold Canonical; infer_instance

/-- Double precision numbers: not a number, the two infinities, and the finite ones. -/
inductive Double
  | nan
  | infinite (negative : Bool)
  | finite (negative : Bool) (mantissa : Nat) (exponent : Int)
      (canonical : Canonical mantissa exponent)
deriving DecidableEq

namespace Double

/-- The quotient of two naturals, rounded to the nearest natural; a half goes to the even neighbour. -/
def roundDiv (num den : Nat) : Nat :=
  let quotient := num / den
  let rest := num % den
  if den < 2 * rest || (2 * rest == den && quotient % 2 == 1) then quotient + 1 else quotient

/-- The largest `k` with `2 ^ k ≤ num / den`, for positive `num` and `den`. -/
def floorLog2 (num den : Nat) : Int :=
  let k : Int := (num.log2 : Int) - den.log2
  if den * 2 ^ k.toNat ≤ num * 2 ^ (-k).toNat then k else k - 1

def zero (negative : Bool) : Double :=
  .finite negative 0 (-1074) (by decide)

/-- The double of the given parts; one beyond the largest exponent is infinite. -/
def ofParts (negative : Bool) (mantissa : Nat) (exponent : Int) : Double :=
  if h : Canonical mantissa exponent then .finite negative mantissa exponent h
  else .infinite negative

/-- The double nearest to `num / den`, a tie going to the even mantissa. -/
def nearest (negative : Bool) (num den : Nat) : Double :=
  if num = 0 then zero negative
  else
    let exponent := max (floorLog2 num den - 52) (-1074)
    let mantissa := roundDiv (num * 2 ^ (-exponent).toNat) (den * 2 ^ exponent.toNat)
    if mantissa = 2 ^ 53 then ofParts negative (2 ^ 52) (exponent + 1)
    else ofParts negative mantissa exponent

def ofInt (n : Int) : Double :=
  nearest (n < 0) n.natAbs 1

/-- The numerator of the absolute value of a finite double. -/
def num (mantissa : Nat) (exponent : Int) : Nat :=
  mantissa * 2 ^ exponent.toNat

/-- The denominator of the absolute value of a finite double. -/
def den (exponent : Int) : Nat :=
  2 ^ (-exponent).toNat

def isNaN : Double → Bool
  | nan => true
  | _ => false

def isFinite : Double → Bool
  | finite .. => true
  | _ => false

/-- The whole number that a finite double is, if it has no fraction. -/
def toInt? : Double → Option Int
  | finite negative m e _ =>
    if num m e % den e = 0 then
      let n : Int := (num m e / den e : Nat)
      some (if negative then -n else n)
    else none
  | _ => none

/-- A finite double without its fraction. -/
def truncate? : Double → Option Int
  | finite negative m e _ =>
    let n : Int := (num m e / den e : Nat)
    some (if negative then -n else n)
  | _ => none

/-- Whether the absolute value of the first is at most that of the second; false of a number that is
none. -/
def absLe : Double → Double → Bool
  | nan, _ => false
  | _, nan => false
  | _, infinite _ => true
  | infinite _, finite .. => false
  | finite _ m e _, finite _ m' e' _ => num m e * den e' ≤ num m' e' * den e

/-- Equality of values: the two zeros are equal, and what is not a number equals nothing. -/
def equal : Double → Double → Bool
  | nan, _ => false
  | _, nan => false
  | infinite a, infinite b => a == b
  | finite a m e _, finite b m' e' _ => (m == 0 && m' == 0) || (a == b && m == m' && e == e')
  | _, _ => false

/-- Whether a double is zero, of either sign. -/
def isZero : Double → Bool
  | finite _ m _ _ => m == 0
  | _ => false

def mulNat (n : Nat) : Double → Double
  | finite negative m e _ => nearest negative (num m e * n) (den e)
  | x => x

def add : Double → Double → Double
  | nan, _ => nan
  | _, nan => nan
  | infinite a, infinite b => if a = b then infinite a else nan
  | infinite a, _ => infinite a
  | _, infinite b => infinite b
  | finite a m e _, finite b m' e' _ =>
    let x : Int := (num m e * den e' : Nat)
    let y : Int := (num m' e' * den e : Nat)
    let sum := (if a then -x else x) + (if b then -y else y)
    nearest (if sum = 0 then a && b else decide (sum < 0)) sum.natAbs (den e * den e')

def mul : Double → Double → Double
  | nan, _ => nan
  | _, nan => nan
  | infinite a, infinite b => infinite (a != b)
  | infinite a, finite b m _ _ => if m = 0 then nan else infinite (a != b)
  | finite a m _ _, infinite b => if m = 0 then nan else infinite (a != b)
  | finite a m e _, finite b m' e' _ =>
    nearest (a != b) (num m e * num m' e') (den e * den e')

/-- A double rounded to three places, first to the nearest thousandth of its exact value. -/
def roundThousandths : Double → Double
  | finite negative m e _ => nearest negative (roundDiv (num m e * 1000) (den e)) 1000
  | x => x

end Double
end Wireform
