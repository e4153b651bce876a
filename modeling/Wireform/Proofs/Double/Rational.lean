import Wireform.Double.Basic
import Mathlib.Algebra.Order.Field.Power
import Mathlib.Data.Nat.Cast.Field
import Mathlib.Data.Rat.Floor
import Mathlib.Tactic.Linarith
import Mathlib.Tactic.NormNum

/-!
# Doubles as rational numbers

The rational number that a finite double is, and the operations that are exact on it: cutting off the fraction,
asking whether there is one, and comparing.
-/
namespace Wireform.Double

/-- The number of a mantissa and an exponent. -/
def magnitude (m : Nat) (e : Int) : ℚ :=
  m * 2 ^ e

/-- A magnitude with a sign. -/
def withSignRat (negative : Bool) (r : ℚ) : ℚ :=
  if negative then -r else r

/-- The rational number that a finite double is. -/
def toRat? : Double → Option ℚ
  | finite negative m e _ => some (withSignRat negative (magnitude m e))
  | _ => none

/-- A rational number without its fraction. -/
def towardZero (q : ℚ) : ℤ :=
  if 0 ≤ q then ⌊q⌋ else ⌈q⌉

theorem two_zpow_pos (e : Int) : (0 : ℚ) < 2 ^ e :=
  zpow_pos (by norm_num) e

theorem magnitude_nonneg (m : Nat) (e : Int) : 0 ≤ magnitude m e :=
  mul_nonneg (Nat.cast_nonneg m) (two_zpow_pos e).le

theorem withSignRat_neg (negative : Bool) (r : ℚ) : withSignRat (!negative) r = -withSignRat negative r := by
  cases negative <;> simp [withSignRat]

theorem abs_withSignRat (negative : Bool) (r : ℚ) : |withSignRat negative r| = |r| := by
  cases negative <;> simp [withSignRat]

theorem abs_withSignRat_sub (negative : Bool) (q r : ℚ) :
    |withSignRat negative q - withSignRat negative r| = |q - r| := by
  cases negative with
  | false => rfl
  | true => rw [withSignRat, withSignRat, if_pos rfl, if_pos rfl, neg_sub_neg, abs_sub_comm]

/-- A power with a whole exponent as a quotient of naturals. -/
theorem zpow_eq_div (b : Nat) (e : Int) : (b : ℚ) ^ e = (b ^ e.toNat : Nat) / (b ^ (-e).toNat : Nat) := by
  rcases Int.le_total 0 e with he | he
  · obtain ⟨k, rfl⟩ := Int.eq_ofNat_of_zero_le he
    simp
  · obtain ⟨k, hk⟩ := Int.eq_ofNat_of_zero_le (Int.neg_nonneg.mpr he)
    obtain rfl : e = -(k : Int) := by omega
    simp

theorem two_zpow_eq (e : Int) : (2 : ℚ) ^ e = (2 ^ e.toNat : Nat) / (2 ^ (-e).toNat : Nat) :=
  zpow_eq_div 2 e

/-- A quotient in units of a power. -/
theorem div_zpow_eq (b num den : Nat) (e : Int) :
    (num : ℚ) / den / b ^ e = (num * b ^ (-e).toNat : Nat) / (den * b ^ e.toNat : Nat) := by
  rw [zpow_eq_div, div_div_eq_mul_div, div_mul_eq_mul_div, div_div]
  push_cast
  rfl

theorem div_two_zpow (num den : Nat) (e : Int) :
    (num : ℚ) / den / 2 ^ e = (num * 2 ^ (-e).toNat : Nat) / (den * 2 ^ e.toNat : Nat) :=
  div_zpow_eq 2 num den e

theorem magnitude_eq (m : Nat) (e : Int) : magnitude m e = (num m e : ℚ) / (den e : ℚ) := by
  rw [magnitude, two_zpow_eq, num, den, Nat.cast_mul, mul_div_assoc]

/-! ### Whole numbers -/

theorem withSignRat_natCast (negative : Bool) (n : Nat) :
    withSignRat negative n = (Numeral.signed negative n : ℤ) := by
  cases negative <;> simp [withSignRat, Numeral.signed]

/-- Cutting off the fraction is the same for both signs. -/
theorem towardZero_withSignRat (negative : Bool) {r : ℚ} (hr : 0 ≤ r) :
    towardZero (withSignRat negative r) = Numeral.signed negative ⌊r⌋₊ := by
  have hfloor : ⌊r⌋ = (⌊r⌋₊ : ℤ) := (Int.natCast_floor_eq_floor hr).symm
  cases negative with
  | false => rw [withSignRat, if_neg Bool.false_ne_true, towardZero, if_pos hr, hfloor]; rfl
  | true =>
      rw [withSignRat, if_pos rfl, towardZero, Numeral.signed, if_pos rfl, ← hfloor]
      split
      · rename_i hneg
        obtain rfl : r = 0 := le_antisymm (by linarith) hr
        simp
      · exact Int.ceil_neg

theorem truncate?_eq (x : Double) : x.truncate? = x.toRat?.map towardZero := by
  cases x with
  | nan => rfl
  | infinite negative => rfl
  | finite negative m e h =>
      rw [toRat?, Option.map_some, towardZero_withSignRat negative (magnitude_nonneg m e), magnitude_eq,
        Rat.natFloor_natCast_div_natCast]
      rfl

theorem den_pos (e : Int) : 0 < den e :=
  Nat.two_pow_pos _

/-- A double is an integer exactly if it has no fraction. -/
theorem toInt?_eq_some {x : Double} {n : Int} : x.toInt? = some n ↔ x.toRat? = some (n : ℚ) := by
  cases x with
  | nan => simp [toInt?, toRat?]
  | infinite negative => simp [toInt?, toRat?]
  | finite negative m e h =>
      have hden : (0 : ℚ) < den e := Nat.cast_pos.mpr (den_pos e)
      simp only [toInt?, toRat?, Option.some.injEq]
      by_cases hwhole : num m e % den e = 0
      · have hvalue : magnitude m e = (num m e / den e : Nat) := by
          rw [magnitude_eq, Nat.cast_div (Nat.dvd_of_mod_eq_zero hwhole) hden.ne']
        rw [if_pos hwhole, hvalue, withSignRat_natCast, Int.cast_inj, Option.some.injEq]
        rfl
      · rw [if_neg hwhole]
        refine iff_of_false (Option.some_ne_none n).symm fun hn => hwhole ?_
        have habs : magnitude m e = (n.natAbs : ℚ) := by
          rw [Nat.cast_natAbs, Int.cast_abs, ← hn, abs_withSignRat, abs_of_nonneg (magnitude_nonneg m e)]
        rw [magnitude_eq, div_eq_iff hden.ne'] at habs
        exact Nat.mod_eq_zero_of_dvd ⟨n.natAbs, by rw [Nat.mul_comm]; exact_mod_cast habs⟩

theorem absLe_finite {negative negative' : Bool} {m m' : Nat} {e e' : Int} (h : Canonical m e)
    (h' : Canonical m' e') :
    (finite negative m e h).absLe (finite negative' m' e' h') = true ↔ magnitude m e ≤ magnitude m' e' := by
  have hden (e : Int) : (0 : ℚ) < den e := Nat.cast_pos.mpr (den_pos e)
  rw [magnitude_eq, magnitude_eq, div_le_div_iff₀ (hden e) (hden e'), absLe, decide_eq_true_iff]
  exact_mod_cast Iff.rfl

end Wireform.Double
