import Wireform.Proofs.Double.Literal
import Wireform.Proofs.Double.Nearest

/-!
# Rounding decimal literals

A decimal literal is a rational number, and its double is the nearest one. Where no power of ten is formed, because the
exponent alone decides, the number is beyond the largest double or at most half of the least one.
-/
namespace Wireform.Double

open Numeral (IsDigitOf byPlace)

/-! ### Powers of two and ten -/

/-- Twenty-eight tens make more than ninety-three twos. -/
theorem two_pow_le_ten_pow {a b : Nat} (h : 28 * a ≤ 93 * b) : (2 : ℚ) ^ a ≤ 10 ^ b := by
  have hstep : (2 : ℚ) ^ 93 ≤ 10 ^ 28 := by norm_num
  refine (pow_le_pow_iff_left₀ (by positivity) (by positivity) (by norm_num : 28 ≠ 0)).mp ?_
  calc ((2 : ℚ) ^ a) ^ 28 = 2 ^ (28 * a) := by rw [← pow_mul, mul_comm]
    _ ≤ 2 ^ (93 * b) := pow_le_pow_right₀ (by norm_num) h
    _ = (2 ^ 93) ^ b := pow_mul 2 93 b
    _ ≤ (10 ^ 28) ^ b := pow_le_pow_left₀ (by positivity) hstep b
    _ = (10 ^ b) ^ 28 := by rw [← pow_mul, ← pow_mul, mul_comm]

theorem two_zpow_le_ten_zpow {a b : Int} (hb : 0 ≤ b) (h : 28 * a ≤ 93 * b) : (2 : ℚ) ^ a ≤ 10 ^ b := by
  obtain ⟨b, rfl⟩ := Int.eq_ofNat_of_zero_le hb
  calc (2 : ℚ) ^ a ≤ 2 ^ (a.toNat : Int) := zpow_le_zpow_right₀ (by norm_num) (Int.self_le_toNat a)
    _ = 2 ^ a.toNat := zpow_natCast 2 a.toNat
    _ ≤ 10 ^ b := two_pow_le_ten_pow (by omega)
    _ = 10 ^ (b : Int) := (zpow_natCast 10 b).symm

theorem beyond_le_ten_zpow {e : Int} (he : 309 ≤ e) : beyond ≤ 10 ^ e := by
  calc beyond ≤ 2 ^ (54 : Int) * 2 ^ (970 : Int) :=
        mul_le_mul_of_nonneg_right (by norm_num) (two_zpow_pos 970).le
    _ = 2 ^ (54 + 970 : Int) := (zpow_add₀ (by norm_num) 54 970).symm
    _ ≤ 10 ^ e := two_zpow_le_ten_zpow (by omega) (by omega)

/-! ### The double of a decimal number -/

/-- Half of the least double and less is rounded to zero. -/
theorem roundsTo_zero (negative : Bool) {a : ℚ} (ha : 0 ≤ a) (hsmall : a ≤ 2 ^ (-1075 : Int)) :
    RoundsTo negative (withSignRat negative a) (zero negative) := by
  have hstep := two_zpow_pos (-1074)
  have hhalf : a / 2 ^ (-1074 : Int) ≤ 1 / 2 := by
    rw [div_le_iff₀ hstep]
    calc a ≤ 2 ^ (-1075 : Int) := hsmall
      _ = 2 ^ (-1 + -1074 : Int) := by norm_num
      _ = 1 / 2 * 2 ^ (-1074 : Int) := by rw [zpow_add₀ (by norm_num)]; norm_num
  have hnonneg : 0 ≤ a / 2 ^ (-1074 : Int) := div_nonneg ha hstep.le
  have hzero : Canonical 0 (-1074) := by decide
  have h := roundsTo_kept (m := 0) (e := -1074) negative (.inr rfl) hnonneg le_rfl
    (by rw [Nat.cast_zero, sub_zero, abs_of_nonneg hnonneg]; exact hhalf) (fun _ => rfl) (by decide)
  rwa [div_mul_cancel₀ a hstep.ne', ofParts, dif_pos hzero] at h

/-- Digits and a power of ten are rounded to the nearest double. -/
theorem roundsTo_ofDecimal (negative : Bool) (digits : Nat) (e : Int) :
    RoundsTo negative (withSignRat negative (digits * 10 ^ e)) (ofDecimal negative digits e) := by
  have hpow : (0 : ℚ) < 10 ^ e := zpow_pos (by norm_num) e
  rw [ofDecimal]
  split
  · rename_i hdigits
    rw [hdigits, Nat.cast_zero, zero_mul]
    exact roundsTo_zero negative le_rfl (two_zpow_pos _).le
  rename_i hdigits
  have hone : (1 : ℚ) ≤ digits := by exact_mod_cast Nat.pos_of_ne_zero hdigits
  split
  · rename_i he
    refine roundsTo_infinite negative ((beyond_le_ten_zpow he).trans ?_)
    exact le_mul_of_one_le_left hpow.le hone
  split
  · rename_i hsmall
    refine roundsTo_zero negative (by positivity) ?_
    have hbelow : (digits : ℚ) ≤ 10 ^ ((digits.log2 : Int) + 1) := by
      calc (digits : ℚ) ≤ 2 ^ (digits.log2 + 1) := by exact_mod_cast Nat.lt_log2_self.le
        _ = 2 ^ ((digits.log2 : Int) + 1) := (zpow_natCast (2 : ℚ) (digits.log2 + 1)).symm
        _ ≤ 10 ^ ((digits.log2 : Int) + 1) := two_zpow_le_ten_zpow (by omega) (by omega)
    calc (digits : ℚ) * 10 ^ e ≤ 10 ^ ((digits.log2 : Int) + 1) * 10 ^ e := mul_le_mul_of_nonneg_right hbelow hpow.le
      _ = 10 ^ ((digits.log2 : Int) + 1 + e) := (zpow_add₀ (by norm_num) _ e).symm
      _ ≤ 10 ^ (-324 : Int) := zpow_le_zpow_right₀ (by norm_num) (by omega)
      _ ≤ 2 ^ (-1075 : Int) := by
        rw [zpow_neg, zpow_neg]
        exact inv_anti₀ (two_zpow_pos 1075) (two_zpow_le_ten_zpow (by norm_num) (by norm_num))
  · have hvalue : (digits : ℚ) * 10 ^ e = (digits * 10 ^ e.toNat : Nat) / (10 ^ (-e).toNat : Nat) := by
      have h := zpow_eq_div 10 e
      rw [Nat.cast_ofNat] at h
      rw [h, mul_div_assoc', Nat.cast_mul]
    rw [hvalue]
    exact roundsTo_nearest negative _ (Nat.pow_pos (by decide))

/-! ### The double of a literal -/

def Mantissa.value (m : Mantissa) : ℚ :=
  byPlace 10 m.whole + byPlace 10 (m.fraction.getD []) / 10 ^ (m.fraction.getD []).length

/-- The number that a literal denotes without its sign, unless it is infinity. -/
def Unsigned.value? : Unsigned → Option ℚ
  | infinity => none
  | decimal mantissa exponent => some (mantissa.value * 10 ^ exponent.elim 0 Exponent.value)

namespace Literal

def value? (l : Literal) : Option ℚ :=
  l.size.value?.map (withSignRat l.sign.negative)

/-- What a literal is read as: the nearest double, or infinity for its word. -/
def IsReadAs (l : Literal) (x : Double) : Prop :=
  match l.value? with
  | none => x = infinite l.sign.negative
  | some q => RoundsTo l.sign.negative q x

end Literal

/-- Counting from the last digit is the same as counting from the point. -/
theorem Mantissa.value_mul (m : Mantissa) (e : Int) :
    m.value * 10 ^ e =
      Numeral.ofDigits (m.whole ++ m.fraction.getD []) * 10 ^ (e - (m.fraction.getD []).length) := by
  rw [value, Numeral.ofDigits_eq m.isDigitOf, Numeral.byPlace_append, zpow_sub₀ (by norm_num), zpow_natCast]
  push_cast
  field_simp

theorem Literal.isReadAs_double (l : Literal) : l.IsReadAs l.double := by
  obtain ⟨sign, size⟩ := l
  cases size with
  | infinity => exact rfl
  | decimal m e =>
      have h := roundsTo_ofDecimal sign.negative (Numeral.ofDigits (m.whole ++ m.fraction.getD []))
        (e.elim 0 Exponent.value - (m.fraction.getD []).length)
      rwa [← m.value_mul] at h

end Wireform.Double
