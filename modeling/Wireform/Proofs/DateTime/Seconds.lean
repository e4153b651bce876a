import Wireform.Proofs.Coercion
import Wireform.Proofs.Double.Rounding
import Wireform.Schema.Decode
import Wireform.Schema.Encode
import Mathlib.Data.Nat.Find

/-!
# Times as counts of seconds

A time is written as the double nearest to its seconds. Reading multiplies by 1000, rounds to three places and
drops what is left of a fraction. These are four roundings, and for most times the later ones take back what
the earlier ones did. The exception is known exactly. Just above a power of two, `2 ^ e` seconds, the product
by 1000 has not reached `2 ^ (e + 10)`, and its last digit counts half as much as in the rest of the binade:
what the seconds lost can be more than half of that digit, and the product falls one digit short of a whole
number. In five binades of the calendar that digit is too large for three places to repair it, and the time
slips to the millisecond before.
-/
namespace Wireform

/-- The distances from the epoch in milliseconds that are read again as one millisecond less. The seconds lie
just above `2 ^ e`, and the remainder by 1000 is what they lose by rounding, in units of which the last digit
of the product is 512. -/
def DateTime.Slips (millis : Nat) : Prop :=
  ∃ e ∈ [33, 34, 35, 36, 37], 1000 * 2 ^ e ≤ millis ∧ millis < 1024 * 2 ^ e ∧
    256 < millis * 2 ^ (52 - e) % 1000 ∧ millis * 2 ^ (52 - e) % 1000 < 500

instance (millis : Nat) : Decidable (DateTime.Slips millis) := by
  unfold DateTime.Slips; infer_instance

namespace Double

open DateTime (Slips)

variable {n j : Nat}

/-- A number that is shifted far enough is divisible by a power of two. -/
theorem shift_sub (n : Nat) {c : Nat} (hc : c ≤ j) : n * 2 ^ j = n * 2 ^ (j - c) * 2 ^ c := by
  rw [Nat.mul_assoc, ← Nat.pow_add, Nat.sub_add_cancel hc]

/-- The shift that brings a count of seconds to the full width of a mantissa. -/
structure Width (n j : Nat) : Prop where
  low : 1000 * 2 ^ 52 ≤ n * 2 ^ j
  high : n * 2 ^ j < 1000 * 2 ^ 53

/-- The milliseconds of the calendar have such a shift. -/
theorem exists_width (hn : 0 < n) (hlt : n < 1000 * 2 ^ 38) : ∃ j, 15 ≤ j ∧ j ≤ 62 ∧ Width n j := by
  classical
  -- The least shift that reaches the full width does not pass it.
  have hwide : ∃ j, 1000 * 2 ^ 52 ≤ n * 2 ^ j := ⟨62, by omega⟩
  have hfind := Nat.find_spec hwide
  have hleast : ∀ i < Nat.find hwide, n * 2 ^ i < 1000 * 2 ^ 52 := fun i hi =>
    Nat.not_le.mp (Nat.find_min hwide hi)
  have hle : Nat.find hwide ≤ 62 := Nat.find_min' hwide (by omega)
  generalize Nat.find hwide = j at hfind hleast hle
  have hge : 15 ≤ j := by
    by_contra hsmall
    have hmono : n * 2 ^ j ≤ n * 2 ^ 14 :=
      Nat.mul_le_mul_left n (Nat.pow_le_pow_right (by decide) (by omega))
    omega
  refine ⟨j, hge, hle, hfind, ?_⟩
  have hbefore := hleast (j - 1) (by omega)
  rw [shift_sub n (show 1 ≤ j by omega)]
  omega

theorem Width.unique {i : Nat} (hi : Width n i) (hj : Width n j) : i = j := by
  have hlt {i j : Nat} (hi : Width n i) (hj : Width n j) : ¬ i < j := by
    intro hij
    have hmono : n * 2 ^ (i + 1) ≤ n * 2 ^ j :=
      Nat.mul_le_mul_left n (Nat.pow_le_pow_right (by decide) hij)
    have hlow := hi.low
    have hhigh := hj.high
    rw [Nat.pow_succ, ← Nat.mul_assoc] at hmono
    omega
  exact Nat.le_antisymm (Nat.not_lt.mp (hlt hj hi)) (Nat.not_lt.mp (hlt hi hj))

theorem shift_le_iff {e : Nat} (he : e ≤ 52) (c n : Nat) :
    c * 2 ^ e ≤ n ↔ c * 2 ^ 52 ≤ n * 2 ^ (52 - e) := by
  have hpow : c * 2 ^ 52 = c * 2 ^ e * 2 ^ (52 - e) := by
    rw [Nat.mul_assoc, ← Nat.pow_add, Nat.add_sub_cancel' he]
  rw [hpow]
  exact (Nat.mul_le_mul_right_iff (Nat.two_pow_pos _)).symm

/-- Whether a time slips, told by the one shift to the full width. -/
theorem slips_iff (hj : Width n j) (hle : 15 ≤ j) :
    Slips n ↔ j ≤ 19 ∧ n * 2 ^ j < 2 ^ 62 ∧ 256 < n * 2 ^ j % 1000 ∧ n * 2 ^ j % 1000 < 500 := by
  constructor
  · rintro ⟨e, he, hlow, hhigh, hrest⟩
    have hbound : 33 ≤ e ∧ e ≤ 37 := by
      simp only [List.mem_cons, List.not_mem_nil, or_false] at he
      omega
    have hlow' := (shift_le_iff (show e ≤ 52 by omega) 1000 n).mp hlow
    have hhigh' : n * 2 ^ (52 - e) < 1024 * 2 ^ 52 := by
      rw [← Nat.not_le, ← shift_le_iff (show e ≤ 52 by omega)]
      omega
    obtain rfl := (Width.mk hlow' (by omega)).unique hj
    exact ⟨by omega, by omega, hrest⟩
  · rintro ⟨hle', hlt, hrest⟩
    have hback : 52 - (52 - j) = j := by omega
    refine ⟨52 - j, ?_, ?_, ?_, hback.symm ▸ hrest⟩
    · simp only [List.mem_cons, List.not_mem_nil, or_false]
      omega
    · rw [shift_le_iff (by omega), hback]
      exact hj.low
    · rw [← Nat.not_le, shift_le_iff (by omega), hback]
      omega

/-! ### There and back -/

/-- The count of seconds that is written has a mantissa of full width. -/
theorem nearest_seconds (negative : Bool) (hj : Width n j) (hlow : 15 ≤ j) (hhigh : j ≤ 62) {m : Nat}
    (hm : roundDiv (n * 2 ^ j) 1000 = m) : ∃ h, nearest negative n 1000 = .finite negative m (-j) h := by
  -- So many low digits are zero that rounding up cannot reach the next power of two.
  have hwhole := shift_sub n hlow
  have hl := hj.low
  have hh := hj.high
  refine nearest_eq negative (by omega) (by omega) (by omega) hm ?_
  rw [roundDiv_eq_ite] at hm
  split at hm <;> omega

section

variable {J k : Nat} (negative : Bool)

/-- A whole number of milliseconds is found again if its double has a fraction part to spare. -/
theorem truncate?_nearest_thousand (hJ : J ≤ 1074) (hlow : 2 ^ 52 ≤ n * 2 ^ J)
    (hhigh : n * 2 ^ J < 2 ^ 53) :
    (nearest negative (n * 1000) 1000).truncate? = some (Numeral.signed negative n) := by
  have hcomm : n * 1000 * 2 ^ J = n * 2 ^ J * 1000 := Nat.mul_right_comm ..
  have hround : roundDiv (n * 1000 * 2 ^ J) 1000 = n * 2 ^ J := by
    rw [hcomm, roundDiv_mul_self _ (by decide)]
  obtain ⟨h, hx⟩ := nearest_eq negative hJ (by omega) (by omega) hround hhigh
  rw [hx, truncate?_fraction, Nat.mul_div_cancel _ (Nat.two_pow_pos J)]

/-- Less than half a thousandth away from a whole number, three places give that number. -/
theorem roundThousandths_fine (h : Canonical k (-J : Int)) (hJ : 11 ≤ J) (hk : n * 2 ^ J ≤ k + 1)
    (hk' : k ≤ n * 2 ^ J + 1) :
    (finite negative k (-J) h).roundThousandths = nearest negative (n * 1000) 1000 := by
  have hpow : 2 ^ 11 ≤ 2 ^ J := Nat.pow_le_pow_right (by decide) hJ
  have hcomm : n * 1000 * 2 ^ J = n * 2 ^ J * 1000 := Nat.mul_right_comm ..
  rw [roundThousandths_fraction, roundDiv_eq (q := n * 1000) (by omega) (by omega) (by omega)]

/-- Three places tell doubles apart that lie further from each other than a thousandth; and next to a whole
number also those that lie a little closer. -/
theorem roundDiv_thousandths (hJ : J ≤ 10) (hk : k + 1 = n * 2 ^ J ∨ k = n * 2 ^ J + 1) :
    roundDiv (roundDiv (k * 1000) (2 ^ J) * 2 ^ J) 1000 = k := by
  obtain rfl | hlt : J = 10 ∨ J < 10 := by omega
  · rcases hk with hk | hk
    · have hround : roundDiv (k * 1000) (2 ^ 10) = n * 1000 - 1 :=
        roundDiv_eq (by decide) (by omega) (by omega)
      rw [hround]
      exact roundDiv_eq (by decide) (by omega) (by omega)
    · have hround : roundDiv (k * 1000) (2 ^ 10) = n * 1000 + 1 :=
        roundDiv_eq (by decide) (by omega) (by omega)
      rw [hround]
      exact roundDiv_eq (by decide) (by omega) (by omega)
  · have hpow : 2 ^ J ≤ 2 ^ 9 := Nat.pow_le_pow_right (by decide) (by omega)
    obtain ⟨hbelow, habove⟩ := roundDiv_bounds (k * 1000) (Nat.two_pow_pos J)
    exact roundDiv_eq (by decide) (by omega) (by omega)

/-- So rounding to three places does not move them. -/
theorem roundThousandths_coarse (h : Canonical k (-J : Int)) (hJ : J ≤ 10) (hlow : 2 ^ 52 + 2 ≤ n * 2 ^ J)
    (hhigh : n * 2 ^ J + 2 < 2 ^ 53) (hk : k + 1 = n * 2 ^ J ∨ k = n * 2 ^ J + 1) :
    (finite negative k (-J) h).roundThousandths = finite negative k (-J) h := by
  have hround := roundDiv_thousandths hJ hk
  have hclose := roundDiv_bounds (k * 1000) (Nat.two_pow_pos J)
  have hpow : 2 ^ J ≤ 2 ^ 10 := Nat.pow_le_pow_right (by decide) hJ
  rw [roundThousandths_fraction]
  obtain ⟨_, hx⟩ := nearest_eq negative (by omega) (by omega) (by omega) hround (by omega)
  exact hx

end

/-- A neighbour above a whole number has the same whole part, one below has the whole part before. -/
theorem div_of_neighbour {J k : Nat} (hJ : 0 < J) (hn : 0 < n) :
    (k + 1 = n * 2 ^ J → k / 2 ^ J = n - 1) ∧ (k = n * 2 ^ J + 1 → k / 2 ^ J = n) := by
  have htwo : 2 ^ 1 ≤ 2 ^ J := Nat.pow_le_pow_right (by decide) hJ
  have hbefore : (n - 1) * 2 ^ J + 2 ^ J = n * 2 ^ J := by
    rw [← Nat.add_one_mul, Nat.sub_add_cancel hn]
  have hafter := Nat.add_one_mul n (2 ^ J)
  constructor <;> intro hk
  · refine Nat.div_eq_of_lt_le (by omega) ?_
    rw [Nat.sub_add_cancel hn]
    omega
  · exact Nat.div_eq_of_lt_le (by omega) (by omega)

/-- A product whose last digit counts 1024 is whole again as soon as it is rounded. -/
theorem truncate?_seconds_wide (negative : Bool) (hj : Width n j) (hlow : 15 ≤ j) (hhigh : j ≤ 62)
    (hwide : 2 ^ 62 ≤ n * 2 ^ j) :
    ((nearest negative n 1000).mulNat 1000).roundThousandths.truncate? =
      some (Numeral.signed negative n) := by
  obtain ⟨J, rfl⟩ : ∃ J, j = 10 + J := ⟨j - 10, by omega⟩
  have hh := hj.high
  have hwhole := shift_sub n hlow
  have hten : n * 2 ^ (10 + J) = n * 2 ^ J * 1024 := by
    rw [shift_sub n (Nat.le_add_right 10 J), Nat.add_sub_cancel_left]
  obtain ⟨m, hm⟩ : ∃ m, roundDiv (n * 2 ^ (10 + J)) 1000 = m := ⟨_, rfl⟩
  obtain ⟨_, hx⟩ := nearest_seconds negative hj hlow hhigh hm
  have hclose : 2 ^ 62 ≤ m * 1000 ∧ m * 1000 < n * 2 ^ J * 1024 + 500 ∧
      n * 2 ^ J * 1024 < m * 1000 + 500 := by
    rw [roundDiv_eq_ite] at hm
    split at hm <;> omega
  have hround : roundDiv (m * 1000) (2 ^ 10) = n * 2 ^ J := roundDiv_eq (by decide) (by omega) (by omega)
  obtain ⟨hc, hy⟩ := nearest_two_pow negative (J := J) (by omega) (by omega) (by omega) hround (by omega)
  rw [hx, mulNat_fraction, hy, roundThousandths_fraction,
    Nat.mul_right_comm, roundDiv_mul_self _ (Nat.two_pow_pos J)]
  exact truncate?_nearest_thousand negative (J := J) (by omega) (by omega) (by omega)

/-- An even quotient by 512 is met from anywhere up to half the way to its neighbour, and from there on the
neighbour is. -/
theorem roundDiv_below {N x r : Nat} (hN : N % 2 = 0) (hx : x + r = N * 512) (hr : r < 768) :
    roundDiv x 512 + (if 256 < r then 1 else 0) = N := by
  rw [roundDiv_eq_ite]
  split <;> split <;> omega

theorem roundDiv_above {N x r : Nat} (hN : N % 2 = 0) (hx : x = N * 512 + r) (hr : r < 768) :
    roundDiv x 512 = N + (if 256 < r then 1 else 0) := by
  rw [roundDiv_eq_ite]
  split <;> split <;> omega

/-- The two roundings where the last digit counts 512: the number is met, or the product is one digit off. -/
theorem roundDiv_narrow {N m : Nat} (hN : N % 2 = 0) (hm : roundDiv (N * 512) 1000 = m) :
    (roundDiv (m * 1000) 512 + 1 = N ∧ 256 < N * 512 % 1000 ∧ N * 512 % 1000 < 500) ∨
      (roundDiv (m * 1000) 512 = N ∨ roundDiv (m * 1000) 512 = N + 1) ∧
        ¬ (256 < N * 512 % 1000 ∧ N * 512 % 1000 < 500) := by
  have hdiv : N * 512 / 1000 * 1000 + N * 512 % 1000 = N * 512 := Nat.div_add_mod' ..
  have heighths : N * 512 % 1000 % 8 = 0 := by omega
  have hrest : N * 512 % 1000 < 1000 := Nat.mod_lt _ (by decide)
  generalize N * 512 / 1000 = q at hdiv
  generalize N * 512 % 1000 = r at *
  rcases Nat.lt_or_ge r 500 with hlow | hhigh
  · obtain rfl : q = m := hm ▸ (roundDiv_eq (by decide) (by omega) (by omega)).symm
    have hback := roundDiv_below hN hdiv (by omega)
    generalize roundDiv (q * 1000) 512 = k at hback ⊢
    split at hback <;> omega
  · obtain rfl : q + 1 = m := hm ▸ (roundDiv_eq (by decide) (by omega) (by omega)).symm
    have hback := roundDiv_above (x := (q + 1) * 1000) (r := 1000 - r) hN (by omega) (by omega)
    generalize roundDiv ((q + 1) * 1000) 512 = k at hback ⊢
    split at hback <;> omega

/-- A product whose last digit counts 512 is whole again, or three places repair it, or it stays one digit off.
One digit below is a time that slips. -/
theorem truncate?_seconds_narrow (negative : Bool) (hn : 0 < n) (hj : Width n j) (hlow : 15 ≤ j)
    (hhigh : j ≤ 62) (hnarrow : n * 2 ^ j < 2 ^ 62) :
    ((nearest negative n 1000).mulNat 1000).roundThousandths.truncate? =
      some (Numeral.signed negative (if Slips n then n - 1 else n)) := by
  have hslips := slips_iff hj hlow
  obtain ⟨J, rfl⟩ : ∃ J, j = 9 + J := ⟨j - 9, by omega⟩
  have hl := hj.low
  have hwhole := shift_sub n hlow
  have hnine : n * 2 ^ (9 + J) = n * 2 ^ J * 512 := by
    rw [shift_sub n (Nat.le_add_right 9 J), Nat.add_sub_cancel_left]
  have hmultiple : n * 2 ^ J % 64 = 0 := by omega
  have heven : n * 2 ^ J % 2 = 0 := by omega
  obtain ⟨m, hm⟩ : ∃ m, roundDiv (n * 2 ^ (9 + J)) 1000 = m := ⟨_, rfl⟩
  obtain ⟨_, hx⟩ := nearest_seconds negative hj hlow hhigh hm
  have hclose := roundDiv_bounds (n * 2 ^ (9 + J)) (show 0 < 1000 by decide)
  rw [hm] at hclose
  rw [hnine] at hm hslips hl hnarrow hclose
  have hfull : 2 ^ 52 * 2 ^ 9 ≤ m * 1000 ∧ m * 1000 < 2 ^ 53 * 2 ^ 9 := by
    clear hm
    omega
  have hback := roundDiv_narrow heven hm
  have hy := nearest_two_pow negative (show J ≤ 1074 by omega) hfull.1 hfull.2 rfl
  clear hm
  generalize roundDiv (m * 1000) (2 ^ 9) = k at hback hy
  obtain ⟨hc, hy⟩ := hy (by omega)
  rw [hx, mulNat_fraction, hy]
  by_cases hfine : 11 ≤ J
  · have hstays : ¬ Slips n := fun h => by
      have := hslips.mp h
      omega
    rw [if_neg hstays, roundThousandths_fine (n := n) negative hc hfine (by omega) (by omega)]
    exact truncate?_nearest_thousand negative (J := J) (by omega) (by omega) (by omega)
  · have hdiv := div_of_neighbour (J := J) (k := k) (by omega) hn
    rcases hback with ⟨hbelow, hrest⟩ | ⟨heq | habove, hrest⟩
    · have hmoves : Slips n := hslips.mpr ⟨by omega, by omega, hrest⟩
      rw [if_pos hmoves, roundThousandths_coarse (n := n) negative hc (by omega) (by omega) (by omega)
        (.inl hbelow), truncate?_fraction, hdiv.1 hbelow]
    · rw [if_neg fun h => hrest (hslips.mp h).2.2, roundThousandths_fraction, heq, Nat.mul_right_comm,
        roundDiv_mul_self _ (Nat.two_pow_pos J)]
      exact truncate?_nearest_thousand negative (J := J) (by omega) (by omega) (by omega)
    · rw [if_neg fun h => hrest (hslips.mp h).2.2, roundThousandths_coarse (n := n) negative hc (by omega)
        (by omega) (by omega) (.inr habove), truncate?_fraction, hdiv.2 habove]

theorem truncate?_seconds_zero (negative : Bool) :
    ((nearest negative 0 1000).mulNat 1000).roundThousandths.truncate? =
      some (Numeral.signed negative 0) := by
  have hnone : roundDiv 0 (den (-1074)) = 0 := by simp [roundDiv]
  simp only [nearest, if_true, zero, mulNat, num, Nat.zero_mul, roundThousandths, hnone, truncate?,
    Nat.zero_div, Numeral.signed]

/-- A count of milliseconds in seconds is found again in milliseconds, or is one too small. -/
theorem truncate?_seconds (negative : Bool) (hlt : n < 1000 * 2 ^ 38) :
    ((nearest negative n 1000).mulNat 1000).roundThousandths.truncate? =
      some (Numeral.signed negative (if Slips n then n - 1 else n)) := by
  rcases Nat.eq_zero_or_pos n with rfl | hn
  · rw [truncate?_seconds_zero, if_neg (by decide)]
  · obtain ⟨j, hlow, hhigh, hj⟩ := exists_width hn hlt
    rcases Nat.lt_or_ge (n * 2 ^ j) (2 ^ 62) with hnarrow | hwide
    · exact truncate?_seconds_narrow negative hn hj hlow hhigh hnarrow
    · have hslips : ¬ Slips n := fun h => by
        have := (slips_iff hj hlow).mp h
        omega
      rw [if_neg hslips]
      exact truncate?_seconds_wide negative hj hlow hhigh hwide

end Double

namespace DateTime

/-- No time of the two centuries around the epoch slips; the first one lies in the year 2242. -/
theorem not_slips_of_lt {millis : Nat} (h : millis < 1000 * 2 ^ 33) : ¬ Slips millis := by
  rintro ⟨e, he, hlow, -⟩
  have hbound : 33 ≤ e := by
    simp only [List.mem_cons, List.not_mem_nil, or_false] at he
    omega
  have hpow : 2 ^ 33 ≤ 2 ^ e := Nat.pow_le_pow_right (by decide) hbound
  omega

/-- The first time that slips: 2242-03-16 12:56:32.001. -/
def firstSlip : DateTime :=
  ⟨70725531392001000, by decide, some .utc⟩

/-- Where the milliseconds of a time are found after it was written in seconds. -/
def slipped (millis : Int) : Int :=
  if Slips millis.natAbs then millis - millis.sign else millis

theorem signed_slipped (millis : Int) :
    Numeral.signed (millis < 0) (if Slips millis.natAbs then millis.natAbs - 1 else millis.natAbs) =
      slipped millis := by
  unfold slipped
  split
  · rename_i h
    have hne : millis.natAbs ≠ 0 := fun hzero => not_slips_of_lt (by omega) h
    rcases Int.lt_or_le millis 0 with hneg | hnonneg
    · rw [Int.sign_eq_neg_one_of_neg hneg, decide_eq_true hneg, Numeral.signed, if_pos rfl]
      omega
    · rw [Int.sign_eq_one_of_pos (by omega), decide_eq_false (by omega), Numeral.signed,
        if_neg Bool.false_ne_true]
      omega
  · exact Numeral.signed_natAbs millis

/-- Nearer to the epoch the calendar has no gaps. -/
theorem exists_ofMillis?_slipped {millis : Int} {t : DateTime} (h : ofMillis? millis = some t) :
    ∃ u, ofMillis? (slipped millis) = some u := by
  obtain ⟨hticks, -⟩ := ofTicks?_eq_some h
  have hbound := t.inCalendar
  simp only [microsOfCalendar, Calendar.dayCount, microsPerDay] at hbound
  simp only [epoch, microsPerDay] at hticks
  have hslipped : 0 ≤ (epoch : Int) + slipped millis * 1000 ∧
      ((epoch : Int) + slipped millis * 1000).toNat < microsOfCalendar := by
    simp only [microsOfCalendar, Calendar.dayCount, epoch, microsPerDay, slipped]
    rcases Int.lt_trichotomy millis 0 with hneg | rfl | hpos
    · rw [Int.sign_eq_neg_one_of_neg hneg]
      split <;> omega
    · simp
    · rw [Int.sign_eq_one_of_pos hpos]
      split <;> omega
  exact ⟨_, dif_pos hslipped⟩

end DateTime

namespace Value

open DateTime (slipped)

/-- A time that is written in seconds is read at the milliseconds that it slips to. -/
theorem secondsToDateTime?_seconds {millis : Int} {t : DateTime} (h : DateTime.ofMillis? millis = some t) :
    (float t.seconds).secondsToDateTime? = DateTime.ofMillis? (slipped millis) := by
  have hsmall : millis.natAbs < 1000 * 2 ^ 38 := by
    obtain ⟨hticks, -⟩ := DateTime.ofTicks?_eq_some h
    have hbound := t.inCalendar
    simp only [microsOfCalendar, Calendar.dayCount, microsPerDay] at hbound
    simp only [DateTime.epoch, microsPerDay] at hticks
    omega
  have hread : (float t.seconds).toDouble? = some t.seconds := by
    rw [toDouble?, DateTime.seconds, Double.isNaN_nearest, if_neg Bool.false_ne_true]
  rw [secondsToDateTime?, hread, DateTime.seconds, DateTime.millis_of_ofMillis? h]
  simp only [DateTime.ofMillisDouble?, Double.truncate?_seconds _ hsmall, DateTime.signed_slipped]

/-- So it is read as itself exactly if it does not slip. -/
theorem exists_secondsToDateTime?_seconds {millis : Int} {t : DateTime}
    (h : DateTime.ofMillis? millis = some t) :
    ∃ u, (float t.seconds).secondsToDateTime? = some u ∧ DateTime.ofMillis? (slipped millis) = some u ∧
      (u = t ↔ ¬ DateTime.Slips millis.natAbs) := by
  obtain ⟨u, hu⟩ := DateTime.exists_ofMillis?_slipped h
  refine ⟨u, by rw [secondsToDateTime?_seconds h, hu], hu, ?_⟩
  constructor
  · rintro rfl hslips
    have hsame := (DateTime.millis_of_ofMillis? h).symm.trans (DateTime.millis_of_ofMillis? hu)
    rw [slipped, if_pos hslips] at hsame
    have hne : millis.natAbs ≠ 0 := fun hzero => DateTime.not_slips_of_lt (by omega) hslips
    have hsign := Int.sign_eq_zero_iff_zero (a := millis)
    omega
  · intro hstays
    rw [slipped, if_neg hstays, h] at hu
    exact (Option.some.inj hu).symm

end Value

namespace Schema

theorem decode_seconds_eq_ok {v : Value} {t : DateTime} :
    (Schema.scalar .dateUnixSecs).decode v = .ok (.datetime t) ↔ v.secondsToDateTime? = some t := by
  simp only [decode, Scalar.read?]
  cases v.secondsToDateTime? <;> simp

/-- What is read as a time from a count of seconds is written as a count of seconds, and that is read as the
same time, unless the time slips: then it is read as the millisecond next to it, towards the epoch. -/
theorem decode_encode_seconds {v t : Value} (h : (Schema.scalar .dateUnixSecs).decode v = .ok t) :
    ∃ u w, t = .datetime u ∧ (Schema.scalar .dateUnixSecs).encode t = .ok w ∧
      ((Schema.scalar .dateUnixSecs).decode w = .ok t ↔ ¬ DateTime.Slips u.millis.natAbs) ∧
      (DateTime.Slips u.millis.natAbs → ∃ u', DateTime.ofMillis? (u.millis - u.millis.sign) = some u' ∧
        (Schema.scalar .dateUnixSecs).decode w = .ok (.datetime u')) := by
  obtain ⟨u, hu, rfl⟩ : ∃ u, v.secondsToDateTime? = some u ∧ t = .datetime u := by
    simp only [decode, Scalar.read?] at h
    cases hu : v.secondsToDateTime? <;> simp_all
  obtain ⟨millis, hmillis⟩ := Value.exists_ofMillis?_of_seconds hu
  obtain ⟨u', hagain, hslipped, hsame⟩ := Value.exists_secondsToDateTime?_seconds hmillis
  obtain rfl := DateTime.millis_of_ofMillis? hmillis
  refine ⟨u, .float u.seconds, rfl, rfl, ?_, fun hslips => ⟨u', ?_, decode_seconds_eq_ok.mpr hagain⟩⟩
  · rw [decode_seconds_eq_ok, hagain, Option.some.injEq, hsame]
  · rw [← hslipped, DateTime.slipped, if_pos hslips]

/-- The first time that slips, 2242-03-16 12:56:32.001, read with half a millisecond more. -/
theorem decode_encode_firstSlip :
    ∃ u w, Value.datetime DateTime.firstSlip = .datetime u ∧
      (Schema.scalar .dateUnixSecs).encode (.datetime DateTime.firstSlip) = .ok w ∧
      ((Schema.scalar .dateUnixSecs).decode w = .ok (.datetime DateTime.firstSlip) ↔
        ¬ DateTime.Slips u.millis.natAbs) ∧
      (DateTime.Slips u.millis.natAbs → ∃ u', DateTime.ofMillis? (u.millis - u.millis.sign) = some u' ∧
        (Schema.scalar .dateUnixSecs).decode w = .ok (.datetime u')) :=
  decode_encode_seconds (v := .str "8589934592.0015") (decode_seconds_eq_ok.mpr (by decide +kernel))

/-- Not every time that is read from a count of seconds is read again from what it is written as. -/
theorem seconds_not_read_again :
    ¬ ∀ v t, (Schema.scalar .dateUnixSecs).decode v = .ok t →
      ∃ w, (Schema.scalar .dateUnixSecs).encode t = .ok w ∧
        (Schema.scalar .dateUnixSecs).decode w = .ok t := by
  intro hlaw
  have hread : (Value.str "8589934592.0015").secondsToDateTime? = some DateTime.firstSlip := by decide +kernel
  have hlost : (Value.float DateTime.firstSlip.seconds).secondsToDateTime? ≠ some DateTime.firstSlip := by
    decide +kernel
  obtain ⟨w, hw, hagain⟩ := hlaw _ _ (decode_seconds_eq_ok.mpr hread)
  obtain rfl := Except.ok.inj hw
  exact hlost (decode_seconds_eq_ok.mp hagain)

end Schema
end Wireform
