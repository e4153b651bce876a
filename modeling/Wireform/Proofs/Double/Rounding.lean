import Wireform.Double.Basic

/-!
# Rounding to the nearest double

A quotient is rounded to a natural number by its distance, and to a double at the binade in which it lies. The
exponent of a double is found by comparing, so it is enough to know a power of two below the quotient and the
next one above it.
-/
namespace Wireform.Double

section

variable {num den : Nat}

theorem roundDiv_eq_ite (num den : Nat) :
    roundDiv num den =
      if den < 2 * (num % den) ∨ 2 * (num % den) = den ∧ num / den % 2 = 1 then num / den + 1
      else num / den := by
  simp [roundDiv]

/-- Rounding moves by at most one half. -/
theorem roundDiv_bounds (num : Nat) (hden : 0 < den) :
    2 * num ≤ 2 * (roundDiv num den * den) + den ∧ 2 * (roundDiv num den * den) ≤ 2 * num + den := by
  have hdiv : num / den * den + num % den = num := Nat.div_add_mod' num den
  rw [roundDiv_eq_ite]
  have hrest : num % den < den := Nat.mod_lt num hden
  have hnext := Nat.add_one_mul (num / den) den
  split <;> omega

/-- A number less than one half away is the nearest one. -/
theorem roundDiv_eq {q : Nat} (hden : 0 < den) (hlow : 2 * (q * den) < 2 * num + den)
    (hhigh : 2 * num < 2 * (q * den) + den) : roundDiv num den = q := by
  obtain ⟨hbelow, habove⟩ := roundDiv_bounds num hden
  have hle : roundDiv num den * den < (q + 1) * den := by
    rw [Nat.add_one_mul q den]
    omega
  have hge : q * den < (roundDiv num den + 1) * den := by
    rw [Nat.add_one_mul (roundDiv num den) den]
    omega
  have hle' := Nat.lt_of_mul_lt_mul_right hle
  have hge' := Nat.lt_of_mul_lt_mul_right hge
  omega

/-- A whole quotient is not changed. -/
theorem roundDiv_mul_self (q : Nat) (hden : 0 < den) : roundDiv (q * den) den = q :=
  roundDiv_eq hden (by omega) (by omega)

theorem roundDiv_mul_right (num den : Nat) {c : Nat} (hc : 0 < c) :
    roundDiv (num * c) (den * c) = roundDiv num den := by
  have hlt : den * c < 2 * (num % den * c) ↔ den < 2 * (num % den) := by
    rw [← Nat.mul_assoc]
    exact Nat.mul_lt_mul_right hc
  have heq : 2 * (num % den * c) = den * c ↔ 2 * (num % den) = den := by
    rw [← Nat.mul_assoc]
    exact Nat.mul_left_inj (Nat.ne_of_gt hc)
  simp only [roundDiv_eq_ite, Nat.mul_div_mul_right _ _ hc, Nat.mul_mod_mul_right, hlt, heq]

/-- A comparison of scaled numbers does not depend on how the power is split between them. -/
theorem mul_pow_toNat_le_iff (a b : Nat) {k : Int} {p q : Nat} (hk : k = p - q) :
    a * 2 ^ k.toNat ≤ b * 2 ^ (-k).toNat ↔ a * 2 ^ p ≤ b * 2 ^ q := by
  obtain ⟨c, hp, hq⟩ : ∃ c, p = k.toNat + c ∧ q = (-k).toNat + c := ⟨min p q, by omega, by omega⟩
  rw [hp, hq, Nat.pow_add, Nat.pow_add, ← Nat.mul_assoc, ← Nat.mul_assoc]
  exact (Nat.mul_le_mul_right_iff (Nat.two_pow_pos c)).symm

/-- The power of two below a quotient is the one that is given. -/
theorem floorLog2_eq {j : Nat} (hlow : 2 ^ 52 * den ≤ num * 2 ^ j) (hhigh : num * 2 ^ j < 2 ^ 53 * den) :
    floorLog2 num den = 52 - j := by
  have hden : den ≠ 0 := by
    rintro rfl
    omega
  have hnum : num ≠ 0 := by
    rintro rfl
    omega
  have hdenLow : 2 ^ den.log2 ≤ den := Nat.log2_self_le hden
  have hnumLow : 2 ^ num.log2 ≤ num := Nat.log2_self_le hnum
  -- The logarithms of numerator and denominator leave two candidates.
  have habove : 52 + den.log2 < num.log2 + 1 + j := by
    refine (Nat.pow_lt_pow_iff_right (by decide : 1 < 2)).mp ?_
    calc 2 ^ (52 + den.log2) = 2 ^ 52 * 2 ^ den.log2 := Nat.pow_add ..
      _ ≤ 2 ^ 52 * den := Nat.mul_le_mul_left _ hdenLow
      _ ≤ num * 2 ^ j := hlow
      _ < 2 ^ (num.log2 + 1) * 2 ^ j := Nat.mul_lt_mul_of_pos_right Nat.lt_log2_self (Nat.two_pow_pos j)
      _ = 2 ^ (num.log2 + 1 + j) := (Nat.pow_add ..).symm
  have hbelow : num.log2 + j < 53 + (den.log2 + 1) := by
    refine (Nat.pow_lt_pow_iff_right (by decide : 1 < 2)).mp ?_
    calc 2 ^ (num.log2 + j) = 2 ^ num.log2 * 2 ^ j := Nat.pow_add ..
      _ ≤ num * 2 ^ j := Nat.mul_le_mul_right _ hnumLow
      _ < 2 ^ 53 * den := hhigh
      _ ≤ 2 ^ 53 * 2 ^ (den.log2 + 1) := Nat.mul_le_mul_left _ (Nat.le_of_lt Nat.lt_log2_self)
      _ = 2 ^ (53 + (den.log2 + 1)) := (Nat.pow_add ..).symm
  simp only [floorLog2]
  by_cases hlog : num.log2 + j = 52 + den.log2
  · have hk : (num.log2 : Int) - den.log2 = (52 : Nat) - j := by omega
    rw [if_pos ((mul_pow_toNat_le_iff den num hk).mpr (by omega)), hk]
    rfl
  · have hk : (num.log2 : Int) - den.log2 = (53 : Nat) - j := by omega
    rw [if_neg fun h => by
      have := (mul_pow_toNat_le_iff den num hk).mp h
      omega, hk]
    omega

/-- A quotient between two powers of two is rounded to a mantissa of full width. -/
theorem nearest_eq (negative : Bool) {j m : Nat} (hj : j ≤ 1074) (hlow : 2 ^ 52 * den ≤ num * 2 ^ j)
    (hhigh : num * 2 ^ j < 2 ^ 53 * den) (hround : roundDiv (num * 2 ^ j) den = m) (hm : m < 2 ^ 53) :
    ∃ h, nearest negative num den = .finite negative m (-j) h := by
  have hden : 0 < den := by
    refine Nat.pos_of_ne_zero ?_
    rintro rfl
    omega
  have hnum : num ≠ 0 := by
    rintro rfl
    omega
  have hfull : 2 ^ 52 ≤ m := by
    have hbound := (roundDiv_bounds (num * 2 ^ j) hden).1
    rw [hround] at hbound
    have hlt : 2 ^ 52 * den < (m + 1) * den := by
      rw [Nat.add_one_mul m den]
      omega
    have := Nat.lt_of_mul_lt_mul_right hlt
    omega
  have hcanonical : Canonical m (-j) := ⟨hm, by omega, by omega, .inl hfull⟩
  have hexponent : max (floorLog2 num den - 52) (-1074) = (-j : Int) := by
    rw [floorLog2_eq hlow hhigh]
    omega
  have hshift : (- -(j : Int)).toNat = j := by omega
  have hnone : (-(j : Int)).toNat = 0 := by omega
  refine ⟨hcanonical, ?_⟩
  simp only [nearest, if_neg hnum, hexponent, hshift, hnone, Nat.pow_zero, Nat.mul_one, hround]
  rw [if_neg (Nat.ne_of_lt hm), ofParts, dif_pos hcanonical]

/-- A number over a power of two is rounded by the digits that are too many. -/
theorem nearest_two_pow (negative : Bool) {a c J k : Nat} (hJ : J ≤ 1074) (hlow : 2 ^ 52 * 2 ^ c ≤ a)
    (hhigh : a < 2 ^ 53 * 2 ^ c) (hround : roundDiv a (2 ^ c) = k) (hk : k < 2 ^ 53) :
    ∃ h, nearest negative a (2 ^ (c + J)) = .finite negative k (-J) h := by
  have hpos := Nat.two_pow_pos J
  refine nearest_eq negative hJ ?_ ?_ ?_ hk
  · rw [Nat.pow_add, ← Nat.mul_assoc]
    exact Nat.mul_le_mul_right _ hlow
  · rw [Nat.pow_add, ← Nat.mul_assoc]
    exact Nat.mul_lt_mul_of_pos_right hhigh hpos
  · rw [Nat.pow_add, roundDiv_mul_right _ _ hpos, hround]

end

/-! ### What finite doubles with a fraction part are made of -/

section

variable {k J : Nat} (negative : Bool) (h : Canonical k (-J : Int))

theorem num_fraction (k J : Nat) : num k (-J : Int) = k := by
  have hnone : (-(J : Int)).toNat = 0 := by omega
  rw [num, hnone, Nat.pow_zero, Nat.mul_one]

theorem den_fraction (J : Nat) : den (-J : Int) = 2 ^ J := by
  rw [den, Int.neg_neg, Int.toNat_natCast]

theorem mulNat_fraction (c : Nat) :
    (finite negative k (-J) h).mulNat c = nearest negative (k * c) (2 ^ J) := by
  rw [mulNat, num_fraction, den_fraction]

theorem roundThousandths_fraction :
    (finite negative k (-J) h).roundThousandths =
      nearest negative (roundDiv (k * 1000) (2 ^ J)) 1000 := by
  rw [roundThousandths, num_fraction, den_fraction]

theorem truncate?_fraction :
    (finite negative k (-J) h).truncate? = some (Numeral.signed negative (k / 2 ^ J)) := by
  rw [truncate?, num_fraction, den_fraction, Numeral.signed]

end

end Wireform.Double
