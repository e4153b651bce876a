import Wireform.Proofs.Double.Written
import Wireform.Proofs.Numeral.Leading

/-!
# Texts of doubles

The text of a double for a reader has no exponent if it is zero or lies from a millionth up to 10^21: it is the integer
that the double is, or the digits of the written form with zeros put in. So a reader of numbers takes the whole text,
and a reader of integers takes the digits before the point.
-/
namespace Wireform.Double

open Numeral (Sign IsDigitOf byPlace)

/-! ### Texts without an exponent -/

/-- A text without an exponent: a sign if the number is negative, digits, and perhaps a point with more digits. -/
structure Positional where
  sign : Sign
  mantissa : Mantissa
  notPlus : sign ≠ .plus
  whole : mantissa.whole ≠ []
  fraction : mantissa.fraction ≠ some []

namespace Positional

def text (p : Positional) : String :=
  String.ofList (p.sign.text ++ p.mantissa.text)

def value (p : Positional) : ℚ :=
  withSignRat p.sign.negative p.mantissa.value

end Positional

theorem Mantissa.floor_value (m : Mantissa) : ⌊m.value⌋₊ = byPlace 10 m.whole := by
  have hfraction : byPlace 10 (m.fraction.getD []) < 10 ^ (m.fraction.getD []).length := by
    have hdigits : ∀ c ∈ m.fraction.getD [], IsDigitOf 10 c := fun c hc =>
      m.isDigitOf c (List.mem_append_right _ hc)
    rw [← Numeral.ofDigits_eq hdigits]
    exact Numeral.ofDigits_lt fun c hc => (Numeral.isDigit_iff c).mpr (hdigits c hc)
  have hpow : (0 : ℚ) < 10 ^ (m.fraction.getD []).length := by positivity
  refine (Nat.floor_eq_iff ?_).mpr ⟨?_, ?_⟩
  · rw [value]
    positivity
  · rw [value]
    exact le_add_of_nonneg_right (by positivity)
  · rw [value, add_lt_add_iff_left, div_lt_one hpow]
    exact_mod_cast hfraction

theorem Mantissa.mem_text {m : Mantissa} {c : Char} (hc : c ∈ m.text) : IsDigitOf 10 c ∨ c = '.' := by
  rw [text, List.mem_append] at hc
  rcases hc with hc | hc
  · exact .inl (m.isDigitOf_whole c hc)
  · cases hfraction : m.fraction with
    | none =>
        rw [hfraction] at hc
        cases hc
    | some fraction =>
        rw [hfraction] at hc
        refine (List.mem_cons.mp hc).symm.imp_left fun hc => ?_
        exact m.isDigitOf c (List.mem_append_right _ (hfraction ▸ hc))

/-- The run of digits before the point. -/
def Mantissa.run (m : Mantissa) : Numeral.Run 10 where
  digits := m.whole
  rest := m.fraction.elim [] fun digits => '.' :: digits
  isDigitOf := m.isDigitOf_whole
  ends := by
    cases m.fraction with
    | none => nofun
    | some digits => exact fun c hc => Option.some.inj hc ▸ (by decide : ¬ IsDigitOf 10 '.')

theorem Mantissa.not_isMarked_run (m : Mantissa) : ¬ Numeral.IsMarked m.run.text := by
  apply Numeral.not_isMarked
  intro c hc
  exact ⟨ne_of_isDigitOf_or_point (m.mem_text hc) (by decide), ne_of_isDigitOf_or_point (m.mem_text hc) (by decide)⟩

namespace Positional

/-- A reader of integers takes the digits before the point, which make the number without its fraction. -/
theorem readInt?_text (p : Positional) (hshort : p.mantissa.whole.length ≤ 4300) :
    Value.readInt? p.text.toList = some (towardZero p.value) := by
  have hread := Numeral.readInt?_decimal p.sign p.mantissa.run p.mantissa.not_isMarked_run p.whole hshort
  have htext : p.text.toList = p.sign.text ++ p.mantissa.run.text := String.toList_ofList
  have hnonneg : 0 ≤ p.mantissa.value := by
    rw [Mantissa.value]
    positivity
  rw [htext, hread, value, towardZero_withSignRat _ hnonneg, p.mantissa.floor_value]
  rfl

theorem denotes (p : Positional) : Denotes p.text p.value := by
  refine ⟨⟨p.sign, .decimal p.mantissa none⟩, ?_, ?_⟩
  · rw [text, String.toList_ofList, Literal.text, Unsigned.text, Option.elim_none, List.append_nil]
  · rw [Literal.value?, Unsigned.value?, Option.elim_none, zpow_zero, mul_one]
    rfl

end Positional

/-- The text of an integer. -/
theorem exists_positional_toString (n : Int) :
    ∃ p : Positional, p.text = toString n ∧ p.value = n ∧ p.mantissa.whole = Nat.toDigits 10 n.natAbs := by
  obtain ⟨sign, hplus, hsign, htext⟩ := Numeral.toString_eq_sign n
  obtain ⟨m, hm, hvalue, hwhole, hfraction⟩ :=
    exists_without_point (isDigitOf_toDigits n.natAbs) Nat.toDigits_ne_nil
  rw [byPlace_toDigits] at hvalue
  refine ⟨⟨sign, m, hplus, hwhole ▸ Nat.toDigits_ne_nil, by simp [hfraction]⟩, ?_, ?_, hwhole⟩
  · apply String.toList_injective
    rw [Positional.text, String.toList_ofList, htext, hm]
  · rw [Positional.value, hvalue, hsign, withSignRat_natCast, Numeral.signed_natAbs]

/-- The text of a double with a fraction has the digits of its written form. -/
theorem exists_positional_fraction {negative : Bool} {m : Nat} {e : Int} (h : Canonical m e)
    (hnone : (finite negative m e h).toInt? = none)
    (hleast : leastPositional.absLe (finite negative m e h) = true) :
    ∃ p : Positional, p.text = (finite negative m e h).text ∧ Denotes (finite negative m e h).written p.value ∧
      p.mantissa.whole.length ≤ 18 := by
  have hm : m ≠ 0 := by
    rintro rfl
    simp [toInt?, Double.num] at hnone
  have hdenotes := denotes_written negative h hm
  have hfraction := shortest_fraction h hm hnone
  have hbound := (shortest_spec negative h hm).2
  have htext : (finite negative m e h).text =
      String.ofList (withSign negative (positional (Nat.toDigits 10 (shortest negative m e h).1)
        (shortest negative m e h).2)) := by
    simp only [text, hnone, hleast, if_true]
  generalize shortest negative m e h = found at *
  obtain ⟨n, k⟩ := found
  simp only at hfraction hbound hdenotes htext
  obtain ⟨mantissa, hpositional, hvalue, hwhole, hpoint, hlength⟩ :=
    exists_positional (isDigitOf_toDigits n) Nat.toDigits_ne_nil k
  obtain ⟨sign, hplus, rfl, hsign⟩ := exists_withSign negative
  refine ⟨⟨sign, mantissa, hplus, hwhole, hpoint⟩, ?_, ?_, ?_⟩
  · rw [htext, Positional.text, ← hsign, hpositional]
  · rwa [Positional.value, hvalue, byPlace_toDigits]
  · exact (hlength hfraction).trans ((Nat.length_toDigits_le_iff (by decide) (by decide)).mpr hbound)

/-! ### Which texts have an exponent -/

theorem leastPositional_eq : leastPositional = finite false 4722366482869645 (-72) (by decide) := by
  decide +kernel

/-- Whole numbers but zero are not below it. -/
theorem absLe_of_toInt? {x : Double} {n : Int} (hx : x.toInt? = some n) (hn : n ≠ 0) :
    leastPositional.absLe x = true := by
  have hvalue := toInt?_eq_some.mp hx
  cases x with
  | nan => cases hx
  | infinite negative => cases hx
  | finite negative m e h =>
      have habs : magnitude m e = |(n : ℚ)| := by
        rw [← Option.some.inj hvalue, abs_withSignRat, abs_of_nonneg (magnitude_nonneg m e)]
      have hone : (1 : ℚ) ≤ |(n : ℚ)| := by exact_mod_cast Int.one_le_abs hn
      rw [leastPositional_eq, absLe_finite, habs]
      refine le_trans ?_ hone
      rw [magnitude]
      norm_num

theorem text_of_toInt? {x : Double} {n : Int} (hx : x.toInt? = some n) :
    x.text = if n.natAbs < firstScientific then toString n else x.written := by
  cases x with
  | nan => cases hx
  | infinite negative => cases hx
  | finite negative m e h => simp only [text, hx]

/-- Zero, and what lies from a millionth up to 10^21. -/
def InPositionalRange (x : Double) (v : ℚ) : Prop :=
  v = 0 ∨ leastPositional.absLe x = true ∧ |v| < 10 ^ 21

theorem natAbs_lt_iff (n : Int) : n.natAbs < firstScientific ↔ |(n : ℚ)| < 10 ^ 21 := by
  rw [firstScientific, ← Int.cast_abs, ← Nat.cast_natAbs]
  exact_mod_cast Iff.rfl

section

variable {x : Double} {v : ℚ}

theorem exists_denotes_written (hx : x.toRat? = some v) : ∃ q, Denotes x.written q := by
  cases x with
  | nan => cases hx
  | infinite negative => cases hx
  | finite negative m e h => exact (written_reads_back h).imp fun q hq => hq.1

theorem not_whole_of_toInt? (hx : x.toRat? = some v) (hnone : x.toInt? = none) : ¬ ∃ n : ℤ, v = n := by
  rintro ⟨n, rfl⟩
  rw [toInt?_eq_some.mpr hx] at hnone
  cases hnone

theorem abs_lt_of_toInt? (hx : x.toRat? = some v) (hnone : x.toInt? = none) : |v| < 10 ^ 21 := by
  cases x with
  | nan => cases hx
  | infinite negative => cases hx
  | finite negative m e h =>
      rw [← Option.some.inj hx, abs_withSignRat, abs_of_nonneg (magnitude_nonneg m e)]
      exact (lt_of_toInt?_eq_none h hnone).trans (by norm_num)

/-- In the range, a text is the integer that the double is, or the digits of its written form. -/
theorem exists_positional_text (hx : x.toRat? = some v) (hrange : InPositionalRange x v) :
    ∃ p : Positional, p.text = x.text ∧ p.mantissa.whole.length ≤ 4300 ∧ ((∃ n : ℤ, v = n) → p.value = v) ∧
      ((¬ ∃ n : ℤ, v = n) → Denotes x.written p.value) := by
  cases hint : x.toInt? with
  | some n =>
      obtain rfl : v = n := Option.some.inj (hx.symm.trans (toInt?_eq_some.mp hint))
      have hsmall : n.natAbs < firstScientific := by
        rw [natAbs_lt_iff]
        rcases hrange with hzero | ⟨-, hless⟩
        · rw [hzero, abs_zero]
          positivity
        · exact hless
      obtain ⟨p, htext, hvalue, hwhole⟩ := exists_positional_toString n
      refine ⟨p, ?_, ?_, fun _ => hvalue, fun h => absurd ⟨n, rfl⟩ h⟩
      · rw [htext, text_of_toInt? hint, if_pos hsmall]
      · rw [hwhole]
        exact ((Nat.length_toDigits_le_iff (by decide) (by decide)).mpr hsmall).trans (by decide : 21 ≤ 4300)
  | none =>
      have hfraction := not_whole_of_toInt? hx hint
      have hleast : leastPositional.absLe x = true :=
        (hrange.resolve_left fun hzero => hfraction ⟨0, by rw [hzero, Int.cast_zero]⟩).1
      cases x with
      | nan => cases hx
      | infinite negative => cases hx
      | finite negative m e h =>
          obtain ⟨p, htext, hdenotes, hlength⟩ := exists_positional_fraction h hint hleast
          exact ⟨p, htext, hlength.trans (by decide), fun h => absurd h hfraction, fun _ => hdenotes⟩

/-- Outside the range, a text is the written form. -/
theorem text_eq_written (hx : x.toRat? = some v) (hrange : ¬ InPositionalRange x v) : x.text = x.written := by
  obtain ⟨hzero, hrange⟩ := not_or.mp hrange
  cases hint : x.toInt? with
  | some n =>
      obtain rfl : v = n := Option.some.inj (hx.symm.trans (toInt?_eq_some.mp hint))
      have hleast := absLe_of_toInt? hint (by exact_mod_cast hzero)
      rw [text_of_toInt? hint, if_neg fun hsmall => hrange ⟨hleast, (natAbs_lt_iff n).mp hsmall⟩]
  | none =>
      have hleast : leastPositional.absLe x = false := by
        rw [← Bool.not_eq_true]
        exact fun hleast => hrange ⟨hleast, abs_lt_of_toInt? hx hint⟩
      cases x with
      | nan => cases hx
      | infinite negative => cases hx
      | finite negative m e h => simp only [text, hint, hleast, Bool.false_eq_true, if_false]

end

/-- The text of a finite double is made without a fault, and the pattern of numbers matches it to its end. For zero, and
from a millionth up to 10^21, it has no exponent and denotes the double itself if that is an integer, and otherwise what
its written form denotes; a reader of integers takes this number without its fraction. All other texts are the written
forms. -/
theorem text_faithful {x : Double} {v : ℚ} (hx : x.toRat? = some v) :
    Attempt.numberText x = .ok x.text ∧ numberPattern.group? x.text.toList = some x.text.toList ∧
    (InPositionalRange x v → ∃ p : Positional, p.text = x.text ∧ ((∃ n : ℤ, v = n) → p.value = v) ∧
      ((¬ ∃ n : ℤ, v = n) → Denotes x.written p.value) ∧
      Attempt.toInt (.float x) = .ok (some (towardZero p.value)) ∧
      (Value.float x).toInt? = some (towardZero p.value)) ∧
    (¬ InPositionalRange x v → x.text = x.written) := by
  refine ⟨Attempt.numberText_eq x, ?_, fun hrange => ?_, text_eq_written hx⟩
  · by_cases hrange : InPositionalRange x v
    · obtain ⟨p, htext, -⟩ := exists_positional_text hx hrange
      rw [← htext]
      exact p.denotes.group?_eq
    · obtain ⟨q, hq⟩ := exists_denotes_written hx
      rw [text_eq_written hx hrange]
      exact hq.group?_eq
  · obtain ⟨p, htext, hlength, hwhole, hfraction⟩ := exists_positional_text hx hrange
    have hread : (Value.float x).toInt? = some (towardZero p.value) := by
      rw [← p.readInt?_text hlength, htext]
      rfl
    refine ⟨p, htext, hwhole, hfraction, ?_, hread⟩
    rw [Attempt.toInt_eq rfl, hread]

theorem text_faithful_half :
    ∃ p : Positional, p.text = "-0.5" ∧ Denotes "-0.5" p.value ∧
      (Value.float (.finite true (2 ^ 52) (-53) (by decide))).toInt? = some (towardZero p.value) := by
  have hx : (finite true (2 ^ 52) (-53) (by decide)).toRat? = some (-(1 / 2)) := by
    rw [toRat?, withSignRat, if_pos rfl, magnitude]
    norm_num
  have htext : (finite true (2 ^ 52) (-53) (by decide)).text = "-0.5" := by
    decide +kernel
  have hwritten : (finite true (2 ^ 52) (-53) (by decide)).written = "-0.5" := by
    decide +kernel
  have hrange : InPositionalRange (finite true (2 ^ 52) (-53) (by decide)) (-(1 / 2)) :=
    .inr ⟨by decide +kernel, by norm_num⟩
  have hfraction : ¬ ∃ n : ℤ, (-(1 / 2) : ℚ) = n :=
    not_whole_of_toInt? hx (by decide +kernel)
  obtain ⟨p, hp, -, hdenotes, -, hint⟩ := (text_faithful hx).2.2.1 hrange
  exact ⟨p, hp.trans htext, hwritten ▸ hdenotes hfraction, hint⟩

end Wireform.Double
