import Wireform.Proofs.Double.Decimal

/-!
# The fewest digits that read back

The digits of a positive double are looked for on finer and finer grids of ten. On the grid of seventeen digits a point
is so near that it reads back, because two doubles lie farther apart than two points there, so the search ends in time
and what it gives is rounded to the double again.
-/
namespace Wireform.Double

section

variable {negative : Bool} {num den m m' : Nat} {e e' : Int}

theorem ten_zpow_pos (e : Int) : (0 : ℚ) < 10 ^ e :=
  zpow_pos (by norm_num) e

/-! ### Decades -/

/-- The number of digits of a natural tells its decade. -/
theorem decade_of_length {n : Nat} (hn : 0 < n) :
    ∃ k, (Nat.toDigits 10 n).length = k + 1 ∧ 10 ^ k ≤ n ∧ n < 10 ^ (k + 1) := by
  obtain ⟨k, hk⟩ : ∃ k, (Nat.toDigits 10 n).length = k + 1 := Nat.exists_eq_add_one.mpr Nat.length_toDigits_pos
  refine ⟨k, hk, ?_, (Nat.length_toDigits_le_iff (by decide) (by omega)).mp hk.le⟩
  by_contra hless
  rcases Nat.eq_zero_or_pos k with rfl | hpos
  · omega
  · have := (Nat.length_toDigits_le_iff (b := 10) (by decide) hpos).mpr (not_le.mp hless)
    omega

/-- The logarithm of a quotient is the one of the decade in which it lies. -/
theorem floorLog10_spec (hnum : 0 < num) (hden : 0 < den) :
    (10 : ℚ) ^ floorLog10 num den ≤ num / den ∧ (num : ℚ) / den < 10 ^ (floorLog10 num den + 1) := by
  have hdenPos : (0 : ℚ) < den := Nat.cast_pos.mpr hden
  rw [floorLog10, le_div_iff₀ hdenPos, div_lt_iff₀ hdenPos]
  split
  · rename_i hle
    obtain ⟨k, hk, hlow, hhigh⟩ := decade_of_length (Nat.div_pos hle hden)
    have hlow' : 10 ^ k * den ≤ num := (Nat.le_div_iff_mul_le hden).mp hlow
    have hhigh' : num < 10 ^ (k + 1) * den := (Nat.div_lt_iff_lt_mul hden).mp hhigh
    rw [hk, Nat.cast_add, Nat.cast_one, add_sub_cancel_right, ← Nat.cast_add_one, zpow_natCast, zpow_natCast]
    exact ⟨by exact_mod_cast hlow', by exact_mod_cast hhigh'⟩
  · rename_i hlt
    obtain ⟨k, hk, hlow, hhigh⟩ := decade_of_length (Nat.div_pos (Nat.le_sub_one_of_lt (not_le.mp hlt)) hnum)
    have hlow' : 10 ^ k * num < den := by
      have := (Nat.le_div_iff_mul_le hnum).mp hlow
      omega
    have hhigh' : den ≤ 10 ^ (k + 1) * num := by
      have := (Nat.div_lt_iff_lt_mul hnum).mp hhigh
      omega
    have hsucc : -((k + 1 : Nat) : Int) + 1 = -(k : Int) := by omega
    rw [hk, hsucc, zpow_neg, zpow_neg, zpow_natCast, zpow_natCast, inv_mul_le_iff₀ (by positivity),
      lt_inv_mul_iff₀ (by positivity)]
    exact ⟨by exact_mod_cast hhigh', by exact_mod_cast hlow'⟩

/-! ### Neighbours -/

/-- A double has one mantissa and one exponent. -/
theorem canonical_unique (h : Canonical m e) (h' : Canonical m' e') (heq : magnitude m e = magnitude m' e') :
    m = m' ∧ e = e' := by
  have hless {m m' : Nat} {e e' : Int} (h : Canonical m e) (h' : Canonical m' e') (hlt : e < e') :
      magnitude m e < magnitude m' e' := by
    have hm : (m : ℚ) < 2 ^ 53 := by exact_mod_cast h.1
    have hm' : (2 : ℚ) ^ 52 ≤ m' := by
      have hfull : 2 ^ 52 ≤ m' := h'.2.2.2.resolve_right (by have := h.2.1; omega)
      exact_mod_cast hfull
    calc magnitude m e < 2 ^ 53 * 2 ^ e := mul_lt_mul_of_pos_right hm (two_zpow_pos e)
      _ = 2 ^ 52 * 2 ^ (e + 1) := by rw [zpow_add_one₀ (by norm_num)]; ring
      _ ≤ 2 ^ 52 * 2 ^ e' :=
          mul_le_mul_of_nonneg_left (zpow_le_zpow_right₀ (by norm_num) (by omega)) (by norm_num)
      _ ≤ magnitude m' e' := mul_le_mul_of_nonneg_right hm' (two_zpow_pos e').le
  obtain rfl : e = e' := by
    rcases lt_trichotomy e e' with hlt | rfl | hlt
    · exact absurd heq (hless h h' hlt).ne
    · rfl
    · exact absurd heq (hless h' h hlt).ne'
  refine ⟨?_, rfl⟩
  exact_mod_cast mul_right_cancel₀ (two_zpow_pos e).ne' heq

/-- Different numbers of steps are at least a step apart. -/
theorem step_le_of_ne {a b : Nat} (h : a ≠ b) (e : Int) : (2 : ℚ) ^ e ≤ |(a : ℚ) * 2 ^ e - b * 2 ^ e| := by
  have hstep := two_zpow_pos e
  rw [← sub_mul, abs_mul, abs_of_pos hstep]
  exact le_mul_of_one_le_left hstep.le (one_le_abs_sub h)

/-- Another double is at least a step away, or half a step if it is below the start of a binade. -/
theorem step_le (h : Canonical m e) (h' : Canonical m' e') (hne : magnitude m' e' ≠ magnitude m e) :
    2 ^ e ≤ |magnitude m e - magnitude m' e'| ∨
      m = 2 ^ 52 ∧ 2 ^ (e - 1) ≤ |magnitude m e - magnitude m' e'| := by
  have hstep := two_zpow_pos e
  rcases multiple_or_below h' e with ⟨k, hk⟩ | ⟨he, hbelow⟩
  · refine .inl ?_
    rw [hk]
    exact step_le_of_ne (fun hmk => hne (by rw [hk, hmk, magnitude])) e
  have hfull : 2 ^ 52 ≤ m := h.2.2.2.resolve_right (by omega)
  rcases Nat.lt_or_eq_of_le hfull with hless | rfl
  · refine .inl (le_trans ?_ (le_abs_self _))
    have hm : ((2 ^ 52 + 1 : Nat) : ℚ) ≤ m := by exact_mod_cast hless
    have hlow : ((2 ^ 52 + 1 : Nat) : ℚ) * 2 ^ e ≤ magnitude m e := mul_le_mul_of_nonneg_right hm hstep.le
    push_cast at hlow
    linarith
  · refine .inr ⟨rfl, ?_⟩
    have hhalf := two_zpow_pos (e - 1)
    have hvalue : magnitude (2 ^ 52) e = (2 ^ 53 : Nat) * 2 ^ (e - 1) := by
      obtain ⟨e, rfl⟩ : ∃ e₀, e = e₀ + 1 := ⟨e - 1, by omega⟩
      rw [magnitude, zpow_add_one₀ (by norm_num), add_sub_cancel_right]
      push_cast
      ring
    rcases multiple_or_below h' (e - 1) with ⟨k, hk⟩ | ⟨-, hbelow'⟩
    · rw [hk, hvalue]
      exact step_le_of_ne (fun hkm => hne (by rw [hk, hvalue, hkm])) (e - 1)
    · refine le_trans ?_ (le_abs_self _)
      rw [hvalue]
      push_cast
      linarith

/-- A number less than half a step away from a double is rounded to it; at the start of a binade the step below is
half as long. -/
theorem eq_of_roundsTo {q : ℚ} {x : Double} (h : Canonical m e) (hx : RoundsTo negative (withSignRat negative q) x)
    (hq : 0 ≤ q) (hhalf : 2 * |q - magnitude m e| < 2 ^ e)
    (hquarter : m = 2 ^ 52 → 2 * |q - magnitude m e| < 2 ^ (e - 1)) : x = .finite negative m e h := by
  have hstep := two_zpow_pos e
  cases hx with
  | infinite hbeyond =>
      rw [abs_withSignRat, abs_of_nonneg hq] at hbeyond
      have hm : (m : ℚ) + 1 ≤ 2 ^ 53 := by exact_mod_cast h.1
      have hless : q / 2 ^ e < 2 ^ 53 - 1 / 2 := by
        rw [div_lt_iff₀ hstep]
        have hdistance := le_abs_self (q - magnitude m e)
        rw [magnitude] at hdistance hhalf
        nlinarith
      have hfinite := lt_beyond hless h.2.2.1
      rw [div_mul_cancel₀ q hstep.ne'] at hfinite
      exact absurd hbeyond (not_le.mpr hfinite)
  | @finite m' e' h' hbelow hnearest heven =>
      have hnear := hnearest (.finite negative m e h) _ rfl
      rw [abs_withSignRat_sub, abs_withSignRat_sub] at hnear
      have hsum : |magnitude m e - magnitude m' e'| ≤ 2 * |q - magnitude m e| := by
        calc |magnitude m e - magnitude m' e'| = |(q - magnitude m' e') - (q - magnitude m e)| := by congr 1; ring
          _ ≤ |q - magnitude m' e'| + |q - magnitude m e| := abs_sub _ _
          _ ≤ 2 * |q - magnitude m e| := by linarith
      have heq : magnitude m' e' = magnitude m e := by
        by_contra hne
        rcases step_le h h' hne with hfar | ⟨hm, hfar⟩
        · exact absurd (hfar.trans hsum) (not_le.mpr hhalf)
        · exact absurd (hfar.trans hsum) (not_le.mpr (hquarter hm))
      obtain ⟨rfl, rfl⟩ := canonical_unique h' h heq
      rfl

/-! ### Grids of ten -/

/-- The last point of a grid that is not beyond a number. -/
def gridFloor (q : ℚ) (k : Int) : Nat :=
  ⌊q / 10 ^ k⌋₊

theorem gridFloor_eq (num den : Nat) (k : Int) :
    num * 10 ^ (-k).toNat / (den * 10 ^ k.toNat) = gridFloor (num / den) k := by
  have h := div_zpow_eq 10 num den k
  rw [Nat.cast_ofNat] at h
  rw [gridFloor, h, Rat.natFloor_natCast_div_natCast]

/-- One of the neighbours on a grid is at most half a step away. -/
theorem exists_near {q : ℚ} (hq : 0 ≤ q) (k : Int) :
    ∃ n, (n = gridFloor q k ∨ n = gridFloor q k + 1) ∧ 2 * |(n : ℚ) * 10 ^ k - q| ≤ 10 ^ k := by
  have hstep := ten_zpow_pos k
  have hlow : (gridFloor q k : ℚ) ≤ q / 10 ^ k := Nat.floor_le (div_nonneg hq hstep.le)
  have hhigh : q / 10 ^ k < gridFloor q k + 1 := Nat.lt_floor_add_one _
  have hscale (n : ℚ) : |n * 10 ^ k - q| = |n - q / 10 ^ k| * 10 ^ k := by
    rw [← abs_of_pos hstep, ← abs_mul, sub_mul, abs_of_pos hstep, div_mul_cancel₀ q hstep.ne']
  rcases le_total (q / 10 ^ k - gridFloor q k) (1 / 2) with hnear | hfar
  · refine ⟨_, .inl rfl, ?_⟩
    rw [hscale, abs_sub_comm, abs_of_nonneg (sub_nonneg.mpr hlow)]
    nlinarith
  · refine ⟨_, .inr rfl, ?_⟩
    rw [hscale, abs_of_nonneg (by push_cast; linarith)]
    push_cast
    nlinarith

theorem gridFloor_lt {q : ℚ} {k n : Int} {j : Nat} (hnonneg : 0 ≤ q) (hq : q < 10 ^ (n + 1)) (hk : k = n - j) :
    gridFloor q k < 10 ^ (j + 1) := by
  have hstep := ten_zpow_pos k
  refine (Nat.floor_lt (div_nonneg hnonneg hstep.le)).mpr ?_
  rw [div_lt_iff₀ hstep]
  calc q < 10 ^ (n + 1) := hq
    _ = 10 ^ (((j + 1 : Nat) : Int) + k) := by congr 1; omega
    _ = (10 ^ (j + 1) : Nat) * 10 ^ k := by rw [zpow_add₀ (by norm_num), zpow_natCast, Nat.cast_pow, Nat.cast_ofNat]

/-! ### The search -/

section

variable {x : Double} {n : Nat} {k : Int}

/-- What is found on a grid reads back, and it is a neighbour. -/
theorem of_readsBack? (h : readsBack? x negative num den k = some n) :
    ofDecimal negative n k = x ∧ (n = gridFloor (num / den) k ∨ n = gridFloor (num / den) k + 1) := by
  simp only [readsBack?, gridFloor_eq] at h
  generalize gridFloor (num / den) k = below at h ⊢
  split at h
  · rename_i hboth
    obtain ⟨hlower, hupper⟩ := Bool.and_eq_true_iff.mp hboth
    split at h
    · obtain rfl := Option.some.inj h
      exact ⟨eq_of_beq hlower, .inl rfl⟩
    · obtain rfl := Option.some.inj h
      exact ⟨eq_of_beq hupper, .inr rfl⟩
  · split at h
    · rename_i hlower
      obtain rfl := Option.some.inj h
      exact ⟨eq_of_beq hlower, .inl rfl⟩
    · split at h
      · rename_i hupper
        obtain rfl := Option.some.inj h
        exact ⟨eq_of_beq hupper, .inr rfl⟩
      · cases h

/-- Nothing is found on a grid only if neither neighbour reads back. -/
theorem readsBack?_ne_none (hn : n = gridFloor (num / den) k ∨ n = gridFloor (num / den) k + 1)
    (h : ofDecimal negative n k = x) : readsBack? x negative num den k ≠ none := by
  have hfound : (ofDecimal negative (gridFloor (num / den) k) k == x) = true ∨
      (ofDecimal negative (gridFloor (num / den) k + 1) k == x) = true := by
    rcases hn with rfl | rfl
    · exact .inl (beq_iff_eq.mpr h)
    · exact .inr (beq_iff_eq.mpr h)
  simp only [readsBack?, gridFloor_eq]
  split
  · split <;> nofun
  · split
    · nofun
    · split
      · nofun
      · simp_all

/-- The search ends on the first grid where something is found. -/
theorem searchGrid_of_last {last : Nat} (hlast : readsBack? x negative num den (k - last) ≠ none) :
    ∃ j ≤ last, (searchGrid x negative num den (last + 1) k).2 = k - j ∧
      readsBack? x negative num den (k - j) = some (searchGrid x negative num den (last + 1) k).1 := by
  induction last generalizing k with
  | zero =>
      rw [searchGrid]
      cases hread : readsBack? x negative num den k with
      | none => simp [hread] at hlast
      | some n => exact ⟨0, le_rfl, by simp, by simpa using hread⟩
  | succ last ih =>
      rw [searchGrid]
      cases hread : readsBack? x negative num den k with
      | some n => exact ⟨0, by omega, by simp, by simpa using hread⟩
      | none =>
          have hnext : k - 1 - last = k - (last + 1 : Nat) := by omega
          obtain ⟨j, hj, hk, hfound⟩ := ih (k := k - 1) (by rwa [hnext])
          have hstep : k - 1 - j = k - (j + 1 : Nat) := by omega
          rw [hstep] at hk hfound
          exact ⟨j + 1, by omega, hk, hfound⟩

theorem dropZeros_value (more : Nat) (n : Nat) (k : Int) :
    ((dropZeros more n k).1 : ℚ) * 10 ^ (dropZeros more n k).2 = n * 10 ^ k := by
  induction more generalizing n k with
  | zero => rfl
  | succ more ih =>
      rw [dropZeros]
      split
      · rename_i hzero
        have hn : (n : ℚ) = (n / 10 : Nat) * 10 := by
          exact_mod_cast (Nat.div_mul_cancel (Nat.dvd_of_mod_eq_zero hzero)).symm
        rw [ih, hn, zpow_add_one₀ (by norm_num)]
        ring
      · rfl

theorem dropZeros_le (more : Nat) (n : Nat) (k : Int) : (dropZeros more n k).1 ≤ n := by
  induction more generalizing n k with
  | zero => exact le_rfl
  | succ more ih =>
      rw [dropZeros]
      split
      · exact (ih (n / 10) (k + 1)).trans (Nat.div_le_self n 10)
      · exact le_rfl

end

/-! ### Seventeen digits -/

/-- On the grid of seventeen digits a near point reads back. -/
theorem ofDecimal_of_near (negative : Bool) (h : Canonical m e) {n : Nat} {k : Int}
    (hfine : 10 ^ k * 10 ^ 16 ≤ magnitude m e) (hnear : 2 * |(n : ℚ) * 10 ^ k - magnitude m e| ≤ 10 ^ k) :
    ofDecimal negative n k = .finite negative m e h := by
  have hstep := two_zpow_pos e
  have hgrid := ten_zpow_pos k
  rw [magnitude] at hfine
  have hm : (m : ℚ) < 2 ^ 53 := by exact_mod_cast h.1
  refine eq_of_roundsTo h (roundsTo_ofDecimal negative n k) (by positivity) (hnear.trans_lt ?_) fun hstart =>
    hnear.trans_lt ?_
  · nlinarith
  · obtain ⟨e, rfl⟩ : ∃ e₀, e = e₀ + 1 := ⟨e - 1, by omega⟩
    rw [hstart, zpow_add_one₀ (by norm_num)] at hfine
    have hhalf := two_zpow_pos e
    rw [add_sub_cancel_right]
    push_cast at hfine
    nlinarith

/-- The grids on which the digits of a double are looked for, from that of its first digit on. -/
def search (negative : Bool) (h : Canonical m e) : Nat × Int :=
  searchGrid (.finite negative m e h) negative (Double.num m e) (Double.den e) 17
    (floorLog10 (Double.num m e) (Double.den e))

/-- What is found reads back, and it has not more than eighteen digits. -/
theorem search_spec (negative : Bool) (h : Canonical m e) (hm : m ≠ 0) :
    ofDecimal negative (search negative h).1 (search negative h).2 = .finite negative m e h ∧
      (search negative h).1 < 10 ^ 18 := by
  have hnum : 0 < Double.num m e := Nat.mul_pos (Nat.pos_of_ne_zero hm) (Nat.two_pow_pos _)
  have hvalue := magnitude_eq m e
  rw [search]
  obtain ⟨hlow, hhigh⟩ := floorLog10_spec hnum (den_pos e)
  generalize floorLog10 (Double.num m e) (Double.den e) = decade at hlow hhigh ⊢
  -- The finest grid has a point that reads back.
  have hlast : readsBack? (.finite negative m e h) negative (Double.num m e) (Double.den e) (decade - (16 : Nat)) ≠
      none := by
    have hfine : (10 : ℚ) ^ (decade - (16 : Nat)) * 10 ^ 16 ≤ magnitude m e := by
      rw [hvalue, ← zpow_natCast, ← zpow_add₀ (by norm_num), sub_add_cancel]
      exact hlow
    obtain ⟨n, hn, hnear⟩ := exists_near (magnitude_nonneg m e) (decade - (16 : Nat))
    rw [hvalue] at hn
    exact readsBack?_ne_none hn (ofDecimal_of_near negative h hfine hnear)
  obtain ⟨j, hj, hk, hread⟩ := searchGrid_of_last hlast
  obtain ⟨hback, hn⟩ := of_readsBack? hread
  have hfloor := gridFloor_lt (by positivity) hhigh (Eq.refl (decade - j))
  have hpow : 10 ^ (j + 1) ≤ 10 ^ 17 := Nat.pow_le_pow_right (by decide) (by omega)
  have hle : _ ≤ gridFloor (Double.num m e / Double.den e) (decade - j) + 1 :=
    hn.elim (fun hn => hn.le.trans (Nat.le_succ _)) Eq.le
  exact ⟨hk.symm ▸ hback, hle.trans_lt (by omega)⟩

/-- The fewest digits of a positive double are rounded to it, and there are not more than eighteen. -/
theorem shortest_spec (negative : Bool) (h : Canonical m e) (hm : m ≠ 0) :
    RoundsTo negative
        (withSignRat negative ((shortest negative m e h).1 * 10 ^ (shortest negative m e h).2))
        (.finite negative m e h) ∧
      (shortest negative m e h).1 < 10 ^ 18 := by
  have hshortest : shortest negative m e h = dropZeros 17 (search negative h).1 (search negative h).2 := rfl
  obtain ⟨hback, hdigits⟩ := search_spec negative h hm
  rw [hshortest, dropZeros_value]
  refine ⟨?_, (dropZeros_le 17 _ _).trans_lt hdigits⟩
  have hrounds := roundsTo_ofDecimal negative (search negative h).1 (search negative h).2
  rwa [hback] at hrounds

/-! ### Fractions -/

/-- Whole numbers of that size are doubles. -/
theorem exists_whole {n : Nat} (hn : n ≤ 2 ^ 53) : ∃ m e, Canonical m e ∧ magnitude m e = n := by
  rcases Nat.eq_zero_or_pos n with rfl | hpos
  · exact ⟨0, -1074, by decide, by simp [magnitude]⟩
  rcases Nat.lt_or_eq_of_le hn with hlt | rfl
  · have hlog : n.log2 ≤ 52 := by
      have := (Nat.log2_lt hpos.ne').mpr hlt
      omega
    refine ⟨_, _, canonical_whole hpos.ne' hlt, ?_⟩
    rw [magnitude, Nat.cast_mul, Nat.cast_pow, Nat.cast_ofNat, mul_assoc, ← zpow_natCast, ← zpow_add₀ (by norm_num),
      Nat.cast_sub hlog]
    simp
  · refine ⟨2 ^ 52, 1, by decide, ?_⟩
    rw [magnitude]
    norm_num

/-- A double with a fraction is below the whole doubles. -/
theorem lt_of_toInt?_eq_none (h : Canonical m e) (hnone : (finite negative m e h).toInt? = none) :
    magnitude m e < 2 ^ 53 := by
  have he : e < 0 := by
    by_contra hnonneg
    have hden : den e = 1 := by rw [den, show (-e).toNat = 0 by omega, Nat.pow_zero]
    simp only [toInt?, hden, Nat.mod_one, if_true] at hnone
    cases hnone
  have hm : (m : ℚ) < 2 ^ 53 := by exact_mod_cast h.1
  calc magnitude m e < 2 ^ 53 * 2 ^ e := mul_lt_mul_of_pos_right hm (two_zpow_pos e)
    _ ≤ 2 ^ 53 * 2 ^ (0 : Int) :=
        mul_le_mul_of_nonneg_left (zpow_le_zpow_right₀ (by norm_num) he.le) (by norm_num)
    _ = 2 ^ 53 := by norm_num

/-- The digits of a double with a fraction have a fraction. -/
theorem shortest_fraction (h : Canonical m e) (hm : m ≠ 0) (hnone : (finite negative m e h).toInt? = none) :
    (shortest negative m e h).2 < 0 := by
  by_contra hwhole
  obtain ⟨k, hk⟩ := Int.eq_ofNat_of_zero_le (not_lt.mp hwhole)
  obtain ⟨hrounds, -⟩ := shortest_spec negative h hm
  rw [hk, zpow_natCast] at hrounds
  have hcast : ((shortest negative m e h).1 : ℚ) * 10 ^ k = ((shortest negative m e h).1 * 10 ^ k : Nat) := by
    push_cast
    rfl
  rw [hcast] at hrounds
  generalize (shortest negative m e h).1 * 10 ^ k = n at hrounds
  have hless := lt_of_toInt?_eq_none h hnone
  cases hrounds with
  | finite _ _ hnearest _ =>
      rcases Nat.le_total n (2 ^ 53) with hn | hn
      · obtain ⟨m', e', h', hvalue⟩ := exists_whole hn
        have hexact := hnearest (.finite negative m' e' h') _ rfl
        rw [abs_withSignRat_sub, abs_withSignRat_sub, hvalue, sub_self, abs_zero] at hexact
        have heq : magnitude m e = n := (sub_eq_zero.mp (abs_nonpos_iff.mp hexact)).symm
        have hint : (finite negative m e h).toInt? = some (Numeral.signed negative n) :=
          toInt?_eq_some.mpr (by rw [toRat?, heq, withSignRat_natCast])
        rw [hnone] at hint
        cases hint
      · obtain ⟨m', e', h', hvalue⟩ := exists_whole (le_refl (2 ^ 53))
        have hnear := hnearest (.finite negative m' e' h') _ rfl
        have hn' : ((2 ^ 53 : Nat) : ℚ) ≤ n := by exact_mod_cast hn
        rw [abs_withSignRat_sub, abs_withSignRat_sub, hvalue, abs_of_nonneg (sub_nonneg.mpr hn')] at hnear
        have hfar := le_abs_self ((n : ℚ) - magnitude m e)
        push_cast at hnear
        linarith

end

end Wireform.Double
