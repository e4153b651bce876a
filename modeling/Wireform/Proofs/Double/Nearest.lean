import Wireform.Proofs.Double.Rational
import Wireform.Proofs.Double.Whole
import Wireform.Proofs.Double.Rounding
import Mathlib.Tactic.FieldSimp
import Mathlib.Tactic.Linarith
import Mathlib.Tactic.Positivity
import Mathlib.Tactic.Ring

/-!
# The nearest double

A finite double is a rational number. Every quotient is rounded to the double that lies nearest to it; of two
that lie equally near it is the one with the even mantissa, and from half a step beyond the largest double on
it is infinity. A mantissa and an exponent are found by one rounding to a whole number, so what has to be said
about other doubles is only that they are multiples of the same power of two, or lie below the binade.
-/
namespace Wireform.Double

/-- Half a step beyond the largest double. What reaches it is rounded to infinity. -/
def beyond : ℚ :=
  (2 ^ 54 - 1) * 2 ^ (970 : Int)

/-- What a number is rounded to: the nearest finite double, the even one of two that are equally near, or
infinity. The sign is given, since zero has none of its own. -/
inductive RoundsTo (negative : Bool) (q : ℚ) : Double → Prop
  | finite {m : Nat} {e : Int} (h : Canonical m e) (hbelow : |q| < beyond)
      (hnearest : ∀ y v, toRat? y = some v → |q - withSignRat negative (magnitude m e)| ≤ |q - v|)
      (heven : ∀ y v, toRat? y = some v → |q - withSignRat negative (magnitude m e)| = |q - v| →
        v = withSignRat negative (magnitude m e) ∨ m % 2 = 0) :
      RoundsTo negative q (.finite negative m e h)
  | infinite (hbeyond : beyond ≤ |q|) : RoundsTo negative q (.infinite negative)

section

variable {num den m m' : Nat} {e e' : Int}

/-! ### The exponent -/

/-- The logarithm of a quotient is the one of the binade in which it lies. -/
theorem floorLog2_spec (hnum : 0 < num) (hden : 0 < den) :
    (2 : ℚ) ^ floorLog2 num den ≤ num / den ∧ (num : ℚ) / den < 2 ^ (floorLog2 num den + 1) := by
  have hdenPos : (0 : ℚ) < den := Nat.cast_pos.mpr hden
  have hnumLow : (2 : ℚ) ^ (num.log2 : Int) ≤ num := by
    exact_mod_cast Nat.log2_self_le hnum.ne'
  have hnumHigh : (num : ℚ) < 2 ^ ((num.log2 : Int) + 1) := by
    exact_mod_cast Nat.lt_log2_self (n := num)
  have hdenLow : (2 : ℚ) ^ (den.log2 : Int) ≤ den := by
    exact_mod_cast Nat.log2_self_le hden.ne'
  have hdenHigh : (den : ℚ) < 2 ^ ((den.log2 : Int) + 1) := by
    exact_mod_cast Nat.lt_log2_self (n := den)
  have hsplit (a b : Int) : (2 : ℚ) ^ (a + b) = 2 ^ a * 2 ^ b := zpow_add₀ (by norm_num) a b
  -- The logarithms of numerator and denominator leave two binades.
  have hbelow : (2 : ℚ) ^ ((num.log2 : Int) - den.log2 - 1) * den ≤ num := by
    calc (2 : ℚ) ^ ((num.log2 : Int) - den.log2 - 1) * den
        ≤ 2 ^ ((num.log2 : Int) - den.log2 - 1) * 2 ^ ((den.log2 : Int) + 1) :=
          mul_le_mul_of_nonneg_left hdenHigh.le (two_zpow_pos _).le
      _ = 2 ^ (num.log2 : Int) := by rw [← hsplit]; congr 1; omega
      _ ≤ num := hnumLow
  have habove : (num : ℚ) < 2 ^ ((num.log2 : Int) - den.log2 + 1) * den := by
    calc (num : ℚ) < 2 ^ ((num.log2 : Int) + 1) := hnumHigh
      _ = 2 ^ ((num.log2 : Int) - den.log2 + 1) * 2 ^ (den.log2 : Int) := by rw [← hsplit]; congr 1; omega
      _ ≤ 2 ^ ((num.log2 : Int) - den.log2 + 1) * den :=
          mul_le_mul_of_nonneg_left hdenLow (two_zpow_pos _).le
  have htest (k : Int) : den * 2 ^ k.toNat ≤ num * 2 ^ (-k).toNat ↔ (2 : ℚ) ^ k * den ≤ num := by
    have hpow : (0 : ℚ) < (2 ^ (-k).toNat : Nat) := Nat.cast_pos.mpr (Nat.two_pow_pos _)
    rw [two_zpow_eq, div_mul_eq_mul_div, div_le_iff₀ hpow, mul_comm (((2 ^ k.toNat : Nat)) : ℚ)]
    norm_cast
  rw [le_div_iff₀ hdenPos, div_lt_iff₀ hdenPos]
  simp only [floorLog2]
  split
  · rename_i hle
    exact ⟨(htest _).mp hle, habove⟩
  · rename_i hlt
    exact ⟨hbelow, by rw [sub_add_cancel]; exact not_le.mp fun hle => hlt ((htest _).mpr hle)⟩

/-! ### The mantissa -/

/-- A quotient half way between two whole numbers goes to the even one. -/
theorem roundDiv_even (hden : 0 < den)
    (h : 2 * num = 2 * (roundDiv num den * den) + den ∨ 2 * (roundDiv num den * den) = 2 * num + den) :
    roundDiv num den % 2 = 0 := by
  have hdiv : num / den * den + num % den = num := Nat.div_add_mod' num den
  have hrest : num % den < den := Nat.mod_lt num hden
  have hnext := Nat.add_one_mul (num / den) den
  rw [roundDiv_eq_ite] at h ⊢
  split at h <;> split <;> omega

/-- A quotient is rounded to a whole number that is at most one half away, and to an even one if it is that
far. -/
theorem roundDiv_half (num : Nat) (hden : 0 < den) :
    |(num : ℚ) / den - roundDiv num den| ≤ 1 / 2 ∧
      (|(num : ℚ) / den - roundDiv num den| = 1 / 2 → roundDiv num den % 2 = 0) := by
  have hdenPos : (0 : ℚ) < den := Nat.cast_pos.mpr hden
  have hscaled : (num : ℚ) / den - roundDiv num den = (2 * num - 2 * (roundDiv num den * den)) / (2 * den) := by
    field_simp
  obtain ⟨hlow, hhigh⟩ := roundDiv_bounds num hden
  have hlow' : (2 : ℚ) * num ≤ 2 * (roundDiv num den * den) + den := by exact_mod_cast hlow
  have hhigh' : (2 : ℚ) * (roundDiv num den * den) ≤ 2 * num + den := by exact_mod_cast hhigh
  rw [hscaled, abs_div, abs_of_pos (by positivity : (0 : ℚ) < 2 * den), div_le_iff₀ (by positivity),
    div_eq_iff (by positivity)]
  refine ⟨by rw [abs_le]; constructor <;> linarith, fun h => roundDiv_even hden ?_⟩
  rcases abs_eq (by positivity : (0 : ℚ) ≤ 1 / 2 * (2 * den)) |>.mp h with h | h
  · refine .inl ?_
    have : (2 : ℚ) * num = 2 * (roundDiv num den * den) + den := by linarith
    exact_mod_cast this
  · refine .inr ?_
    have : (2 : ℚ) * (roundDiv num den * den) = 2 * num + den := by linarith
    exact_mod_cast this

theorem one_le_abs_sub {a b : Nat} (h : a ≠ b) : (1 : ℚ) ≤ |(a : ℚ) - b| := by
  have h : (1 : Int) ≤ |(a : Int) - b| := Int.one_le_abs (by omega)
  exact_mod_cast h

/-- A whole number that is at most one half away is nearer than any other, apart from ties. -/
theorem nearest_of_half {r : ℚ} (hhalf : |r - m| ≤ 1 / 2) (heven : |r - m| = 1 / 2 → m % 2 = 0) (k : Nat) :
    |r - m| ≤ |r - k| ∧ (|r - m| = |r - k| → k = m ∨ m % 2 = 0) := by
  by_cases hk : k = m
  · exact ⟨by rw [hk], fun _ => .inl hk⟩
  have hapart : (1 : ℚ) ≤ |(k : ℚ) - m| := one_le_abs_sub hk
  have hsum : |(k : ℚ) - m| ≤ |r - m| + |r - k| := by
    calc |(k : ℚ) - m| = |(r - m) - (r - k)| := by congr 1; ring
      _ ≤ |r - m| + |r - k| := abs_sub _ _
  exact ⟨by linarith, fun h => .inr (heven (by linarith))⟩

/-! ### Other doubles -/

/-- Seen from an exponent, a double is a whole number of steps, or it lies below the binade. -/
theorem multiple_or_below (h' : Canonical m' e') (e : Int) :
    (∃ k : Nat, magnitude m' e' = k * 2 ^ e) ∨ -1074 < e ∧ magnitude m' e' < 2 ^ 52 * 2 ^ e := by
  rcases le_or_gt e e' with hle | hlt
  · obtain ⟨j, hj⟩ := Int.eq_ofNat_of_zero_le (sub_nonneg.mpr hle)
    refine .inl ⟨m' * 2 ^ j, ?_⟩
    obtain rfl : e' = j + e := by omega
    rw [magnitude, zpow_add₀ (by norm_num), zpow_natCast]
    push_cast
    ring
  · refine .inr ⟨lt_of_le_of_lt h'.2.1 hlt, ?_⟩
    have hm : (m' : ℚ) < 2 ^ 53 := by exact_mod_cast h'.1
    calc magnitude m' e' < 2 ^ 53 * 2 ^ e' := mul_lt_mul_of_pos_right hm (two_zpow_pos e')
      _ = 2 ^ 52 * 2 ^ (e' + 1) := by rw [zpow_add_one₀ (by norm_num)]; ring
      _ ≤ 2 ^ 52 * 2 ^ e :=
          mul_le_mul_of_nonneg_left (zpow_le_zpow_right₀ (by norm_num) (by omega)) (by norm_num)

/-- A number of a binade, rounded to a whole number of steps, is nearer to that than to any other double, apart
from ties. -/
theorem nearest_magnitude {r : ℚ} (hfull : 2 ^ 52 ≤ r ∨ e = -1074) (hhalf : |r - m| ≤ 1 / 2)
    (heven : |r - m| = 1 / 2 → m % 2 = 0) (h' : Canonical m' e') :
    |r * 2 ^ e - magnitude m e| ≤ |r * 2 ^ e - magnitude m' e'| ∧
      (|r * 2 ^ e - magnitude m e| = |r * 2 ^ e - magnitude m' e'| →
        magnitude m' e' = magnitude m e ∨ m % 2 = 0) := by
  have hstep := two_zpow_pos e
  have hscale (k : Nat) : |r * 2 ^ e - k * 2 ^ e| = |r - k| * 2 ^ e := by
    rw [← sub_mul, abs_mul, abs_of_pos hstep]
  rcases multiple_or_below h' e with ⟨k, hk⟩ | ⟨he, hbelow⟩
  · obtain ⟨hle, htie⟩ := nearest_of_half hhalf heven k
    rw [hk, magnitude, hscale, hscale]
    refine ⟨mul_le_mul_of_nonneg_right hle hstep.le, fun heq => ?_⟩
    exact (htie (mul_right_cancel₀ hstep.ne' heq)).imp_left fun hkm => by rw [hkm]
  · have hlow : 2 ^ 52 ≤ r := hfull.resolve_right (by omega)
    have hbound := (nearest_of_half hhalf heven (2 ^ 52)).1
    have hlow' : (0 : ℚ) ≤ r - (2 ^ 52 : Nat) := by push_cast; linarith
    rw [abs_of_nonneg hlow'] at hbound
    have hless : |r * 2 ^ e - magnitude m e| < |r * 2 ^ e - magnitude m' e'| := by
      calc |r * 2 ^ e - magnitude m e| = |r - m| * 2 ^ e := hscale m
        _ ≤ (r - (2 ^ 52 : Nat)) * 2 ^ e := mul_le_mul_of_nonneg_right hbound hstep.le
        _ = r * 2 ^ e - 2 ^ 52 * 2 ^ e := by push_cast; ring
        _ < r * 2 ^ e - magnitude m' e' := by linarith
        _ ≤ |r * 2 ^ e - magnitude m' e'| := le_abs_self _
    exact ⟨hless.le, fun heq => absurd heq hless.ne⟩

/-- What is nearest among the magnitudes is nearest among all doubles: one of the other sign is farther away
than zero. -/
theorem roundsTo_finite (negative : Bool) {a : ℚ} (ha : 0 ≤ a) (h : Canonical m e) (hbelow : a < beyond)
    (hnear : ∀ {m' e'}, Canonical m' e' → |a - magnitude m e| ≤ |a - magnitude m' e'| ∧
      (|a - magnitude m e| = |a - magnitude m' e'| → magnitude m' e' = magnitude m e ∨ m % 2 = 0)) :
    RoundsTo negative (withSignRat negative a) (.finite negative m e h) := by
  have hother {b : ℚ} (hb : 0 ≤ b) : |withSignRat negative a - withSignRat (!negative) b| = a + b := by
    rw [withSignRat_neg, sub_neg_eq_add]
    cases negative with
    | false => exact abs_of_nonneg (add_nonneg ha hb)
    | true =>
        rw [withSignRat, withSignRat, if_pos rfl, if_pos rfl, ← neg_add, abs_neg]
        exact abs_of_nonneg (add_nonneg ha hb)
  have hzero := @hnear 0 (-1074) (by decide)
  have hnone : magnitude 0 (-1074) = 0 := by simp [magnitude]
  rw [hnone, sub_zero, abs_of_nonneg ha] at hzero
  have hnearest : ∀ y v, toRat? y = some v →
      |withSignRat negative a - withSignRat negative (magnitude m e)| ≤ |withSignRat negative a - v| ∧
        (|withSignRat negative a - withSignRat negative (magnitude m e)| = |withSignRat negative a - v| →
          v = withSignRat negative (magnitude m e) ∨ m % 2 = 0) := by
    intro y v hy
    cases y with
    | nan => cases hy
    | infinite s => cases hy
    | finite s m' e' h' =>
        obtain rfl := Option.some.inj hy
        rw [abs_withSignRat_sub]
        by_cases hs : s = negative
        · rw [hs, abs_withSignRat_sub]
          exact ⟨(hnear h').1, fun heq => ((hnear h').2 heq).imp_left fun hv => by rw [hv]⟩
        · obtain rfl : s = !negative := Bool.eq_not.mpr hs
          have hb := magnitude_nonneg m' e'
          rw [hother hb]
          refine ⟨by linarith [hzero.1], fun heq => ?_⟩
          have hb' : magnitude m' e' = 0 := by linarith [hzero.1]
          rcases hzero.2 (by linarith) with hm | hm
          · exact .inl (by rw [← hm, hb', withSignRat_neg]; simp [withSignRat])
          · exact .inr hm
  refine .finite h ?_ (fun y v hy => (hnearest y v hy).1) (fun y v hy => (hnearest y v hy).2)
  rw [abs_withSignRat, abs_of_nonneg ha]
  exact hbelow

/-- From the binade of the largest double on there is no finite one. -/
theorem beyond_le {r : ℚ} (hr : 2 ^ 53 - 1 / 2 ≤ r) (he : 971 ≤ e) : beyond ≤ r * 2 ^ e := by
  calc beyond = (2 ^ 53 - 1 / 2) * 2 ^ (970 + 1 : Int) := by rw [beyond, zpow_add_one₀ (by norm_num)]; ring
    _ ≤ (2 ^ 53 - 1 / 2) * 2 ^ e :=
        mul_le_mul_of_nonneg_left (zpow_le_zpow_right₀ (by norm_num) (by omega)) (by norm_num)
    _ ≤ r * 2 ^ e := mul_le_mul_of_nonneg_right hr (two_zpow_pos e).le

theorem lt_beyond {r : ℚ} (hr : r < 2 ^ 53 - 1 / 2) (he : e ≤ 971) : r * 2 ^ e < beyond := by
  calc r * 2 ^ e < (2 ^ 53 - 1 / 2) * 2 ^ e := mul_lt_mul_of_pos_right hr (two_zpow_pos e)
    _ ≤ (2 ^ 53 - 1 / 2) * 2 ^ (970 + 1 : Int) :=
        mul_le_mul_of_nonneg_left (zpow_le_zpow_right₀ (by norm_num) (by omega)) (by norm_num)
    _ = beyond := by rw [beyond, zpow_add_one₀ (by norm_num)]; ring

theorem lt_beyond_of_lt {r : ℚ} (hr : r < 2 ^ 53) (he : e ≤ 970) : r * 2 ^ e < beyond := by
  calc r * 2 ^ e < 2 ^ 53 * 2 ^ e := mul_lt_mul_of_pos_right hr (two_zpow_pos e)
    _ ≤ 2 ^ 53 * 2 ^ (970 : Int) :=
        mul_le_mul_of_nonneg_left (zpow_le_zpow_right₀ (by norm_num) he) (by norm_num)
    _ ≤ beyond := mul_le_mul_of_nonneg_right (by norm_num) (two_zpow_pos 970).le

theorem two_pow_le_beyond {k : Nat} (hk : k ≤ 1023) : (2 : ℚ) ^ k ≤ beyond := by
  calc (2 : ℚ) ^ k = 2 ^ (k : Int) := (zpow_natCast 2 k).symm
    _ ≤ 2 ^ (53 + 970 : Int) := zpow_le_zpow_right₀ (by norm_num) (by omega)
    _ = 2 ^ (53 : Int) * 2 ^ (970 : Int) := zpow_add₀ (by norm_num) 53 970
    _ ≤ beyond := mul_le_mul_of_nonneg_right (by norm_num) (two_zpow_pos 970).le

theorem roundsTo_infinite (negative : Bool) {a : ℚ} (h : beyond ≤ a) :
    RoundsTo negative (withSignRat negative a) (.infinite negative) :=
  .infinite (by rw [abs_withSignRat]; exact h.trans (le_abs_self a))

/-- A number of steps that is rounded up to the next binade. -/
theorem roundsTo_carried (negative : Bool) {r : ℚ} (hfull : 2 ^ 52 ≤ r ∨ e = -1074) (hnonneg : 0 ≤ r)
    (hlt : r < 2 ^ 53) (he : -1074 ≤ e) (hhalf : |r - (2 ^ 53 : Nat)| ≤ 1 / 2) :
    RoundsTo negative (withSignRat negative (r * 2 ^ e)) (ofParts negative (2 ^ 52) (e + 1)) := by
  have hvalue : magnitude (2 ^ 52) (e + 1) = magnitude (2 ^ 53) e := by
    rw [magnitude, magnitude, zpow_add_one₀ (by norm_num)]
    push_cast
    ring
  rw [ofParts]
  split
  · rename_i hc
    have hsmall := hc.2.2.1
    refine roundsTo_finite negative (mul_nonneg hnonneg (two_zpow_pos e).le) hc
      (lt_beyond_of_lt hlt (by omega)) fun h' => ?_
    rw [hvalue]
    exact ⟨(nearest_magnitude hfull hhalf (fun _ => rfl) h').1, fun _ => .inr rfl⟩
  · rename_i hc
    have hlarge : 971 ≤ e := by
      by_contra hsmall
      exact hc ⟨by decide, by omega, by omega, .inl le_rfl⟩
    have hlow := (abs_le.mp hhalf).1
    push_cast at hlow
    exact roundsTo_infinite negative (beyond_le (by linarith) hlarge)

/-- A number of steps that stays in its binade. -/
theorem roundsTo_kept (negative : Bool) {r : ℚ} (hfull : 2 ^ 52 ≤ r ∨ e = -1074) (hnonneg : 0 ≤ r)
    (he : -1074 ≤ e) (hhalf : |r - m| ≤ 1 / 2) (heven : |r - m| = 1 / 2 → m % 2 = 0) (hm : m < 2 ^ 53) :
    RoundsTo negative (withSignRat negative (r * 2 ^ e)) (ofParts negative m e) := by
  obtain ⟨hlow, hhigh⟩ := abs_le.mp hhalf
  rw [ofParts]
  split
  · rename_i hc
    refine roundsTo_finite negative (mul_nonneg hnonneg (two_zpow_pos e).le) hc
      (lt_beyond (lt_of_not_ge fun hr => ?_) hc.2.2.1) fun h' => nearest_magnitude hfull hhalf heven h'
    -- The largest mantissa is odd, so a tie above it does not stay.
    have hmax : m = 2 ^ 53 - 1 := by
      refine le_antisymm (Nat.le_sub_one_of_lt hm) ?_
      have hge : ((2 ^ 53 - 1 : Nat) : ℚ) ≤ m := by
        push_cast
        linarith
      exact_mod_cast hge
    have htie : |r - m| = 1 / 2 := by
      refine le_antisymm hhalf (le_trans ?_ (le_abs_self _))
      rw [hmax]
      push_cast
      linarith
    have := heven htie
    omega
  · rename_i hc
    have hlarge : 972 ≤ e := by
      by_contra hsmall
      refine hc ⟨hm, he, by omega, hfull.imp_left fun hr => ?_⟩
      have hprev : ((2 ^ 52 : Nat) : ℚ) < (m + 1 : Nat) := by
        push_cast
        linarith
      exact Nat.lt_succ_iff.mp (by exact_mod_cast hprev)
    have hr : 2 ^ 52 ≤ r := hfull.resolve_right (by omega)
    refine roundsTo_infinite negative ?_
    have hshift : r * 2 ^ e = 2 * r * 2 ^ (e - 1) := by
      rw [show e = e - 1 + 1 by omega, zpow_add_one₀ (by norm_num), add_sub_cancel_right]
      ring
    rw [hshift]
    exact beyond_le (by linarith) (by omega)

/-- Every quotient is rounded to the nearest double. -/
theorem roundsTo_nearest (negative : Bool) (num : Nat) (hden : 0 < den) :
    RoundsTo negative (withSignRat negative (num / den)) (nearest negative num den) := by
  rcases Nat.eq_zero_or_pos num with rfl | hnum
  · have hzero : Canonical 0 (-1074) := by decide
    have hvalue : ((0 : Nat) : ℚ) / den = 0 * 2 ^ (-1074 : Int) := by simp
    rw [hvalue]
    simpa [ofParts, hzero, nearest, zero] using
      roundsTo_kept (m := 0) negative (r := 0) (.inr rfl) le_rfl le_rfl (by norm_num) (by norm_num) (by decide)
  have hlog := floorLog2_spec hnum hden
  rw [nearest, if_neg hnum.ne']
  simp only
  generalize hexp : max (floorLog2 num den - 52) (-1074) = e
  have hden' : 0 < den * 2 ^ e.toNat := Nat.mul_pos hden (Nat.two_pow_pos _)
  obtain ⟨hhalf, heven⟩ := roundDiv_half (num * 2 ^ (-e).toNat) hden'
  rw [← div_two_zpow] at hhalf heven
  have hstep := two_zpow_pos e
  have hvalue : (num : ℚ) / den = num / den / 2 ^ e * 2 ^ e := (div_mul_cancel₀ _ hstep.ne').symm
  have hnonneg : (0 : ℚ) ≤ num / den / 2 ^ e := by positivity
  have hfull : 2 ^ 52 ≤ (num : ℚ) / den / 2 ^ e ∨ e = -1074 := by
    refine (max_choice (floorLog2 num den - 52) (-1074)).imp (fun h => ?_) (fun h => hexp ▸ h)
    rw [le_div_iff₀ hstep, ← hexp, h, ← zpow_natCast, ← zpow_add₀ (by norm_num)]
    refine le_trans (zpow_le_zpow_right₀ (by norm_num) ?_) hlog.1
    push_cast
    omega
  have hlt : (num : ℚ) / den / 2 ^ e < 2 ^ 53 := by
    rw [div_lt_iff₀ hstep, ← zpow_natCast, ← zpow_add₀ (by norm_num)]
    refine lt_of_lt_of_le hlog.2 (zpow_le_zpow_right₀ (by norm_num) ?_)
    push_cast
    omega
  rw [hvalue]
  generalize hm : roundDiv (num * 2 ^ (-e).toNat) (den * 2 ^ e.toNat) = m at hhalf heven
  split
  · rename_i hcarry
    rw [hcarry] at hhalf
    exact roundsTo_carried negative hfull hnonneg hlt (by omega) hhalf
  · rename_i hkept
    refine roundsTo_kept negative hfull hnonneg (by omega) hhalf heven (lt_of_le_of_ne ?_ hkept)
    have hnext : (m : ℚ) < (2 ^ 53 + 1 : Nat) := by
      push_cast
      linarith [(abs_le.mp hhalf).1]
    exact Nat.lt_succ_iff.mp (by exact_mod_cast hnext)

end

/-- A number is rounded to a finite double exactly if it stays below the largest one and half a step more. -/
theorem RoundsTo.isFinite_iff {negative : Bool} {q : ℚ} {x : Double} (h : RoundsTo negative q x) :
    x.isFinite = true ↔ |q| < beyond := by
  cases h with
  | finite _ hbelow => exact iff_of_true rfl hbelow
  | infinite hbeyond => exact iff_of_false nofun (not_lt.mpr hbeyond)

theorem roundsTo_ofInt (n : Int) : RoundsTo (n < 0) n (ofInt n) := by
  have h := roundsTo_nearest (decide (n < 0)) n.natAbs (one_pos : 0 < 1)
  rwa [Nat.cast_one, div_one, withSignRat_natCast, Numeral.signed_natAbs] at h

end Wireform.Double
