import Wireform.Proofs.Double.Written

/-!
# One double for a number

A number is rounded to one double only: of two neighbours that are equally near, one has an odd mantissa. So the
written form of a double, read as a decimal literal, is this double again.
-/
namespace Wireform.Double

section

variable {m m' : Nat} {e e' : Int}

/-- A larger double is larger by a step at least. -/
theorem next_le (h : Canonical m e) (h' : Canonical m' e') (hlt : magnitude m e < magnitude m' e') :
    magnitude (m + 1) e ≤ magnitude m' e' := by
  have hstep := two_zpow_pos e
  rcases multiple_or_below h' e with ⟨k, hk⟩ | ⟨hexponent, hbelow⟩
  · have hmk : m < k := by
      rw [hk, magnitude] at hlt
      exact_mod_cast lt_of_mul_lt_mul_right hlt hstep.le
    rw [hk, magnitude]
    exact mul_le_mul_of_nonneg_right (by exact_mod_cast hmk) hstep.le
  · have hfull : (2 : ℚ) ^ 52 ≤ m := by
      have hm : 2 ^ 52 ≤ m := h.2.2.2.resolve_right (by omega)
      exact_mod_cast hm
    have hle : 2 ^ 52 * 2 ^ e ≤ magnitude m e := mul_le_mul_of_nonneg_right hfull hstep.le
    linarith

/-- What lies as near to two doubles as to any is rounded to the even one. -/
theorem not_nearest_both {r : ℚ} (h : Canonical m e) (h' : Canonical m' e') (hlt : magnitude m e < magnitude m' e')
    (heven : m % 2 = 0) (heven' : m' % 2 = 0) (hequal : |r - magnitude m e| = |r - magnitude m' e'|)
    (hnearest : ∀ {m₁ : Nat} {e₁ : Int}, Canonical m₁ e₁ → |r - magnitude m e| ≤ |r - magnitude m₁ e₁|) :
    False := by
  have hnext : Canonical (m + 1) e := by
    obtain ⟨hm, hlow, hhigh, hfull⟩ := h
    exact ⟨by omega, hlow, hhigh, hfull.imp_left fun hm => by omega⟩
  have hmiddle : 2 * r = magnitude m e + magnitude m' e' := by
    rcases abs_eq_abs.mp hequal with hsame | hopposite
    · linarith
    · linarith
  have hstep : magnitude m e < magnitude (m + 1) e := by
    have hpos := two_zpow_pos e
    rw [magnitude, magnitude, Nat.cast_add, Nat.cast_one]
    linarith
  have hle := next_le h h' hlt
  rcases hle.eq_or_lt with heq | hbetween
  · obtain ⟨rfl, -⟩ := canonical_unique hnext h' heq
    omega
  · have hfar := hnearest hnext
    have hdistance : |r - magnitude m e| = (magnitude m' e' - magnitude m e) / 2 := by
      rw [abs_of_nonneg (by linarith)]
      linarith
    rw [hdistance] at hfar
    rcases le_abs.mp hfar with hfar | hfar <;> linarith

end

/-- A number is rounded to one double only. -/
theorem RoundsTo.unique {negative : Bool} {q : ℚ} {x y : Double} (hx : RoundsTo negative q x)
    (hy : RoundsTo negative q y) : x = y := by
  have hdistance (m : Nat) (e : Int) :
      |q - withSignRat negative (magnitude m e)| = |withSignRat negative q - magnitude m e| := by
    have hq : withSignRat negative (withSignRat negative q) = q := by
      cases negative <;> simp [withSignRat]
    rw [← abs_withSignRat_sub negative (withSignRat negative q), hq]
  cases hx with
  | infinite hbeyond =>
      cases hy with
      | infinite => rfl
      | finite _ hbelow => exact absurd hbelow (not_lt.mpr hbeyond)
  | @finite m e h hbelow hnearest heven =>
      cases hy with
      | infinite hbeyond => exact absurd hbelow (not_lt.mpr hbeyond)
      | @finite m' e' h' _ hnearest' heven' =>
          have hequal : |q - withSignRat negative (magnitude m e)| = |q - withSignRat negative (magnitude m' e')| :=
            le_antisymm (hnearest (.finite negative m' e' h') _ rfl) (hnearest' (.finite negative m e h) _ rfl)
          by_cases heq : magnitude m e = magnitude m' e'
          · obtain ⟨rfl, rfl⟩ := canonical_unique h h' heq
            rfl
          have hne : withSignRat negative (magnitude m e) ≠ withSignRat negative (magnitude m' e') := by
            intro hsame
            have := abs_withSignRat_sub negative (magnitude m e) (magnitude m' e')
            rw [hsame, sub_self, abs_zero] at this
            exact heq (sub_eq_zero.mp (abs_eq_zero.mp this.symm))
          have hm := (heven (.finite negative m' e' h') _ rfl hequal).resolve_left hne.symm
          have hm' := (heven' (.finite negative m e h) _ rfl hequal.symm).resolve_left hne
          rw [hdistance, hdistance] at hequal
          rcases lt_or_gt_of_ne heq with hlt | hgt
          · refine (not_nearest_both h h' hlt hm hm' hequal fun {m₁ e₁} h₁ => ?_).elim
            rw [← hdistance, ← hdistance]
            exact hnearest (.finite negative m₁ e₁ h₁) _ rfl
          · refine (not_nearest_both h' h hgt hm' hm hequal.symm fun {m₁ e₁} h₁ => ?_).elim
            rw [← hdistance, ← hdistance]
            exact hnearest' (.finite negative m₁ e₁ h₁) _ rfl

/-- The exact text of a finite double is read as this double, after its sign and to its end. -/
theorem takeUnsigned?_exactText {negative : Bool} {m : Nat} {e : Int} (h : Canonical m e) {cs : List Char}
    (htext : exactText negative m e h = withSign negative cs) (hsign : ¬ Numeral.StartsSign cs) :
    takeUnsigned? negative cs = some (finite negative m e h, []) := by
  obtain ⟨q, ⟨l, hl, hvalue⟩, hrounds⟩ :
      ∃ q, Denotes (finite negative m e h).written q ∧ RoundsTo negative q (finite negative m e h) :=
    written_reads_back h
  have hread := l.isReadAs_double
  rw [Literal.IsReadAs, hvalue] at hread
  have hlist : l.text = withSign negative cs := by
    rw [hl, ← htext, written, String.toList_ofList]
  obtain ⟨s, -, rfl, hwithSign⟩ := exists_withSign negative
  have hparts := l.takeSign_text
  rw [hlist, ← hwithSign, Numeral.takeSign_text s fun _ => hsign, Prod.mk.injEq] at hparts
  obtain ⟨hnegative, hsize⟩ := hparts
  rw [hnegative] at hrounds ⊢
  obtain ⟨sign, size⟩ := l
  cases size with
  | infinity => cases hvalue
  | decimal mantissa exponent =>
      rw [hsize, Unsigned.takeUnsigned?_text]
      exact congrArg (fun x => some (x, [])) (RoundsTo.unique hread (hnegative ▸ hrounds))

end Wireform.Double
