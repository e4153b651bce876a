import Wireform.Proofs.Double.Reading
import Wireform.Proofs.Double.Shortest

/-!
# Written forms of doubles

The written form of a finite double is a decimal literal of its fewest digits: digits with zeros put in where the power
of ten asks for them, or one digit before a point and an exponent. Either way the literal denotes the number of these
digits, which is rounded to the double again, and the pattern of numbers matches it to its end.
-/
namespace Wireform.Double

open Numeral (Sign IsDigitOf byPlace)

/-! ### What a text denotes -/

/-- A text is a literal, which is a number. -/
def Denotes (s : String) (q : ℚ) : Prop :=
  ∃ l : Literal, l.text = s.toList ∧ l.value? = some q

theorem Literal.takeNumber?_text (l : Literal) : takeNumber? l.text = some (l.double, []) := by
  simp only [takeNumber?, l.takeSign_text, double]
  cases l.size with
  | infinity => rfl
  | decimal m e =>
      have hword := infinityWord_isPrefixOf_decimal m e []
      rw [List.append_nil] at hword
      simp only [hword, Bool.false_eq_true, if_false, Unsigned.takeUnsigned?_text]

/-- The pattern of numbers matches a literal to its end. -/
theorem Literal.group?_text (l : Literal) : numberPattern.group? l.text = some l.text := by
  have h : takeNumber? (l.text ++ []) = some (l.double, []) := by rw [List.append_nil, l.takeNumber?_text]
  have hgroup := group?_of_takeNumber? h
  rwa [List.append_nil] at hgroup

theorem Denotes.group?_eq {s : String} {q : ℚ} (h : Denotes s q) :
    numberPattern.group? s.toList = some s.toList := by
  obtain ⟨l, htext, -⟩ := h
  rw [← htext, l.group?_text]

/-- A text denotes one number only. -/
theorem Denotes.unique {s : String} {q r : ℚ} (hq : Denotes s q) (hr : Denotes s r) : q = r := by
  obtain ⟨⟨sign, size⟩, htext, hvalue⟩ := hq
  obtain ⟨⟨sign', size'⟩, htext', hvalue'⟩ := hr
  have hsame : Numeral.takeSign (Literal.text ⟨sign, size⟩) = Numeral.takeSign (Literal.text ⟨sign', size'⟩) := by
    rw [htext, htext']
  simp only [Literal.takeSign_text, Prod.mk.injEq] at hsame
  cases size with
  | infinity => cases hvalue
  | decimal m e =>
      cases size' with
      | infinity => cases hvalue'
      | decimal m' e' =>
          have hpoint := congrArg takePoint? hsame.2
          simp only [Unsigned.takePoint?_text, Option.some.injEq, Prod.mk.injEq] at hpoint
          obtain ⟨hwhole, hfraction, hexponent⟩ := hpoint
          have hpower := congrArg takeExponent? hexponent
          rw [Unsigned.takeExponent?_elim, Unsigned.takeExponent?_elim] at hpower
          have helim : e.elim 0 Exponent.value = e'.elim 0 Exponent.value := by
            cases e <;> cases e' <;> simp_all
          have hq := Option.some.inj hvalue
          have hr := Option.some.inj hvalue'
          rw [← hq, ← hr, Mantissa.value_mul, Mantissa.value_mul, hwhole, hfraction, helim, hsame.1]

/-! ### Digits without an exponent -/

section

variable {digits : List Char}

theorem isDigitOf_zeros (n : Nat) : ∀ c ∈ List.replicate n '0', IsDigitOf 10 c :=
  fun _ hc => List.eq_of_mem_replicate hc ▸ (by decide : IsDigitOf 10 '0')

theorem byPlace_zeros (n : Nat) : byPlace 10 (List.replicate n '0') = 0 := by
  rw [← Numeral.ofDigits_eq (isDigitOf_zeros n), Numeral.ofDigits, Nat.ofDigitChars_replicate_zero,
    Nat.mul_zero]

/-- The number of a mantissa by its digits alone. -/
theorem Mantissa.value_eq (m : Mantissa) :
    m.value = byPlace 10 (m.whole ++ m.fraction.getD []) / 10 ^ (m.fraction.getD []).length := by
  rw [value, Numeral.byPlace_append]
  push_cast
  field_simp

theorem exists_without_point (hdigits : ∀ c ∈ digits, IsDigitOf 10 c) (hne : digits ≠ []) :
    ∃ m : Mantissa, m.text = digits ∧ m.value = byPlace 10 digits ∧ m.whole = digits ∧ m.fraction = none := by
  refine ⟨⟨digits, none, by simpa using hdigits, by simpa using hne⟩, List.append_nil _, ?_, rfl, rfl⟩
  rw [Mantissa.value_eq]
  simp

theorem exists_with_point {fraction : List Char} (hdigits : ∀ c ∈ digits, IsDigitOf 10 c) (hne : digits ≠ [])
    (hfraction : ∀ c ∈ fraction, IsDigitOf 10 c) :
    ∃ m : Mantissa, m.text = digits ++ '.' :: fraction ∧
      m.value = byPlace 10 (digits ++ fraction) / 10 ^ fraction.length ∧ m.whole = digits ∧
      m.fraction = some fraction := by
  have hall := List.forall_mem_append.mpr ⟨hdigits, hfraction⟩
  exact ⟨⟨digits, some fraction, hall, by simp [hne]⟩, rfl, Mantissa.value_eq _, rfl, rfl⟩

/-- Zeros in front change nothing, and zeros behind are powers of ten. -/
theorem byPlace_zeros_append (n : Nat) (digits : List Char) :
    byPlace 10 (List.replicate n '0' ++ digits) = byPlace 10 digits := by
  rw [Numeral.byPlace_append, byPlace_zeros, Nat.zero_mul, Nat.zero_add]

theorem byPlace_append_zeros (digits : List Char) (n : Nat) :
    byPlace 10 (digits ++ List.replicate n '0') = byPlace 10 digits * 10 ^ n := by
  rw [Numeral.byPlace_append, byPlace_zeros, List.length_replicate, Nat.add_zero]

/-- Zeros are put in where the power of ten asks for them, which makes the same number. -/
theorem exists_positional (hdigits : ∀ c ∈ digits, IsDigitOf 10 c) (hne : digits ≠ []) (k : Int) :
    ∃ m : Mantissa, m.text = positional digits k ∧ m.value = byPlace 10 digits * 10 ^ k ∧ m.whole ≠ [] ∧
      m.fraction ≠ some [] ∧ (k < 0 → m.whole.length ≤ digits.length) := by
  rw [positional]
  split
  · rename_i hk
    obtain ⟨k, rfl⟩ := Int.eq_ofNat_of_zero_le hk
    obtain ⟨m, htext, hvalue, hwhole, hfraction⟩ := exists_without_point
      (List.forall_mem_append.mpr ⟨hdigits, isDigitOf_zeros k⟩) (List.append_ne_nil_of_left_ne_nil hne _)
    refine ⟨m, htext, ?_, ?_, ?_, fun h => absurd hk (not_le.mpr h)⟩
    · rw [hvalue, byPlace_append_zeros]
      push_cast
      rfl
    · simp [hwhole, hne]
    · simp [hfraction]
  rename_i hk
  obtain ⟨places, hplaces⟩ := Int.eq_ofNat_of_zero_le (Int.neg_nonneg.mpr (Int.not_le.mp hk).le)
  obtain rfl : k = -(places : Int) := by omega
  simp only [neg_neg, Int.toNat_natCast, zpow_neg, zpow_natCast, ← div_eq_mul_inv]
  have hlength := List.length_pos_iff.mpr hne
  split
  · rename_i hshort
    have hsplit := List.take_append_drop (digits.length - places) digits
    have hboth := List.forall_mem_append.mp (hsplit.symm ▸ hdigits)
    have hnonempty : digits.take (digits.length - places) ≠ [] :=
      List.ne_nil_of_length_pos (by rw [List.length_take]; omega)
    obtain ⟨m, htext, hvalue, hwhole, hfraction⟩ := exists_with_point hboth.1 hnonempty hboth.2
    refine ⟨m, htext, ?_, hwhole ▸ hnonempty, ?_, fun _ => hwhole ▸ List.length_take_le' _ _⟩
    · rw [hvalue, hsplit, List.length_drop, Nat.sub_sub_self hshort.le]
    · simp only [hfraction, ne_eq, Option.some.injEq, List.drop_eq_nil_iff]
      omega
  · rename_i hlong
    obtain ⟨m, htext, hvalue, hwhole, hfraction⟩ := exists_with_point (isDigitOf_zeros 1) (List.cons_ne_nil _ _)
      (List.forall_mem_append.mpr ⟨isDigitOf_zeros (places - digits.length), hdigits⟩)
    refine ⟨m, htext, ?_, ?_, ?_, fun _ => ?_⟩
    · rw [hvalue, byPlace_zeros_append, byPlace_zeros_append, List.length_append, List.length_replicate,
        Nat.sub_add_cancel (not_lt.mp hlong)]
    · rw [hwhole]
      exact List.cons_ne_nil _ _
    · simp [hfraction, hne]
    · rw [hwhole]
      exact hlength

/-- A whole number with a zero for its fraction. -/
theorem exists_pointZero (hdigits : ∀ c ∈ digits, IsDigitOf 10 c) (hne : digits ≠ []) {k : Int} (hk : 0 ≤ k) :
    ∃ m : Mantissa, m.text = positional digits k ++ ['.', '0'] ∧ m.value = byPlace 10 digits * 10 ^ k := by
  obtain ⟨k, rfl⟩ := Int.eq_ofNat_of_zero_le hk
  obtain ⟨m, htext, hvalue, -⟩ := exists_with_point (List.forall_mem_append.mpr ⟨hdigits, isDigitOf_zeros k⟩)
    (List.append_ne_nil_of_left_ne_nil hne _) (isDigitOf_zeros 1)
  refine ⟨m, ?_, ?_⟩
  · rw [htext, positional, if_pos hk]
    rfl
  · rw [hvalue, byPlace_append_zeros, byPlace_append_zeros]
    push_cast
    rw [List.length_singleton, pow_one, mul_div_cancel_right₀ _ (by norm_num), zpow_natCast]

/-- A power of ten, with its sign and at least two digits. -/
theorem exists_power (power : Int) :
    ∃ e : Exponent, e.text = 'e' :: (if power < 0 then '-' else '+') :: Numeral.padded 2 power.natAbs ∧
      e.value = power := by
  have hdigits : ∀ c ∈ Numeral.padded 2 power.natAbs, IsDigitOf 10 c := fun c hc =>
    (Numeral.isDigit_iff c).mp (Numeral.isDigit_of_mem_padded hc)
  have hne : Numeral.padded 2 power.natAbs ≠ [] := by
    obtain ⟨d, ds, hd, -⟩ := Numeral.padded_eq_cons 2 power.natAbs
    rw [hd]
    exact List.cons_ne_nil d ds
  have hvalue (sign : Sign) (hsign : sign.negative = decide (power < 0)) :
      Exponent.value ⟨'e', sign, Numeral.padded 2 power.natAbs, .inl rfl, hdigits, hne⟩ = power := by
    rw [Exponent.value, ← Numeral.ofDigits_eq hdigits, Numeral.ofDigits_padded, hsign, Numeral.signed_natAbs]
  by_cases hneg : power < 0
  · rw [if_pos hneg]
    exact ⟨_, rfl, hvalue .minus (decide_eq_true hneg).symm⟩
  · rw [if_neg hneg]
    exact ⟨_, rfl, hvalue .plus (decide_eq_false hneg).symm⟩

/-- A point behind the first digit and a power of ten make the same number. -/
theorem exists_scientific (hdigits : ∀ c ∈ digits, IsDigitOf 10 c) (hne : digits ≠ []) (power : Int) :
    ∃ (m : Mantissa) (e : Exponent), m.text ++ e.text = scientific digits power ∧
      m.value * 10 ^ e.value = byPlace 10 digits * 10 ^ (power - (digits.length - 1)) := by
  obtain ⟨e, htext, hvalue⟩ := exists_power power
  obtain ⟨c, tail, rfl⟩ := List.exists_cons_of_ne_nil hne
  have hmantissa : ∃ m : Mantissa, m.text = c :: (if tail.isEmpty then [] else '.' :: tail) ∧
      m.value = byPlace 10 (c :: tail) / 10 ^ tail.length := by
    have hfirst : ∀ d ∈ [c], IsDigitOf 10 d := List.forall_mem_singleton.mpr (hdigits c List.mem_cons_self)
    cases tail with
    | nil =>
        obtain ⟨m, htext, hvalue, -⟩ := exists_without_point hfirst hne
        exact ⟨m, htext, by rw [hvalue, List.length_nil, pow_zero, div_one]⟩
    | cons d tail =>
        obtain ⟨m, htext, hvalue, -⟩ := exists_with_point hfirst (List.cons_ne_nil c [])
          fun d hd => hdigits d (List.mem_cons_of_mem c hd)
        exact ⟨m, htext, hvalue⟩
  obtain ⟨m, hm, hmvalue⟩ := hmantissa
  refine ⟨m, e, by rw [hm, htext, scientific]; rfl, ?_⟩
  rw [hmvalue, hvalue, List.length_cons, Nat.cast_add, Nat.cast_one, add_sub_cancel_right, zpow_sub₀ (by norm_num),
    zpow_natCast]
  ring

end

/-! ### Written forms -/

theorem exists_withSign (negative : Bool) :
    ∃ s : Sign, s ≠ .plus ∧ s.negative = negative ∧ ∀ cs, s.text ++ cs = withSign negative cs := by
  cases negative with
  | false => exact ⟨.absent, nofun, rfl, fun _ => rfl⟩
  | true => exact ⟨.minus, nofun, rfl, fun _ => rfl⟩

theorem denotes_withSign (negative : Bool) {size : Unsigned} {q : ℚ} (h : size.value? = some q) :
    Denotes (String.ofList (withSign negative size.text)) (withSignRat negative q) := by
  obtain ⟨s, -, rfl, htext⟩ := exists_withSign negative
  refine ⟨⟨s, size⟩, ?_, ?_⟩
  · rw [String.toList_ofList, ← htext]
    rfl
  · rw [Literal.value?, h]
    rfl

theorem denotes_mantissa (negative : Bool) {cs : List Char} {q : ℚ} {m : Mantissa} (htext : m.text = cs)
    (hvalue : m.value = q) : Denotes (String.ofList (withSign negative cs)) (withSignRat negative q) := by
  have hsize : (Unsigned.decimal m none).value? = some q := by
    rw [Unsigned.value?, Option.elim_none, zpow_zero, mul_one, hvalue]
  have hdecimal : (Unsigned.decimal m none).text = cs := by
    rw [Unsigned.text, Option.elim_none, List.append_nil, htext]
  rw [← hdecimal]
  exact denotes_withSign negative hsize

theorem isDigitOf_toDigits (n : Nat) : ∀ c ∈ Nat.toDigits 10 n, IsDigitOf 10 c :=
  fun c hc => (Numeral.isDigit_iff c).mp (Numeral.isDigit_of_mem_toDigits hc)

theorem byPlace_toDigits (n : Nat) : byPlace 10 (Nat.toDigits 10 n) = n := by
  rw [← Numeral.ofDigits_eq (isDigitOf_toDigits n), Numeral.ofDigits_toDigits]

/-- The written form of a double is a literal of its fewest digits, whatever its size. -/
theorem denotes_written (negative : Bool) {m : Nat} {e : Int} (h : Canonical m e) (hm : m ≠ 0) :
    Denotes (finite negative m e h).written
      (withSignRat negative ((shortest negative m e h).1 * 10 ^ (shortest negative m e h).2)) := by
  have hdigits := isDigitOf_toDigits (shortest negative m e h).1
  have hne : Nat.toDigits 10 (shortest negative m e h).1 ≠ [] := Nat.toDigits_ne_nil
  have hvalue := byPlace_toDigits (shortest negative m e h).1
  have hwritten : (finite negative m e h).written = String.ofList (exactText negative m e h) := rfl
  rw [hwritten, exactText, if_neg hm]
  generalize shortest negative m e h = found at *
  obtain ⟨n, k⟩ := found
  simp only at hdigits hne hvalue ⊢
  split
  · split
    · rename_i hk
      obtain ⟨mantissa, htext, hmantissa⟩ := exists_pointZero hdigits hne hk
      exact denotes_mantissa negative htext (by rw [hmantissa, hvalue])
    · obtain ⟨mantissa, htext, hmantissa, -⟩ := exists_positional hdigits hne k
      exact denotes_mantissa negative htext (by rw [hmantissa, hvalue])
  · obtain ⟨mantissa, exponent, htext, hmantissa⟩ :=
      exists_scientific hdigits hne (k + (Nat.toDigits 10 n).length - 1)
    have hplace : k + (Nat.toDigits 10 n).length - 1 - ((Nat.toDigits 10 n).length - 1) = k := by omega
    have hsize : (Unsigned.decimal mantissa (some exponent)).value? = some ((n : ℚ) * 10 ^ k) := by
      rw [Unsigned.value?, Option.elim_some, hmantissa, hvalue, hplace]
    have hdecimal : (Unsigned.decimal mantissa (some exponent)).text =
        scientific (Nat.toDigits 10 n) (k + (Nat.toDigits 10 n).length - 1) := htext
    rw [← hdecimal]
    exact denotes_withSign negative hsize

theorem denotes_written_zero (negative : Bool) {e : Int} (h : Canonical 0 e) :
    Denotes (finite negative 0 e h).written 0 := by
  obtain ⟨m, htext, hvalue, -⟩ := exists_with_point (isDigitOf_zeros 1) (List.cons_ne_nil _ _) (isDigitOf_zeros 1)
  rw [byPlace_zeros_append, byPlace_zeros, Nat.cast_zero, zero_div] at hvalue
  have hdenotes := denotes_mantissa negative htext hvalue
  rwa [withSignRat, neg_zero, ite_self] at hdenotes

/-- The written form of a double denotes a number that is rounded to it. -/
theorem written_reads_back {negative : Bool} {m : Nat} {e : Int} (h : Canonical m e) :
    ∃ q, Denotes (finite negative m e h).written q ∧ RoundsTo negative q (finite negative m e h) := by
  by_cases hm : m = 0
  · subst hm
    obtain rfl : e = -1074 := h.2.2.2.resolve_left (by decide)
    refine ⟨0, denotes_written_zero negative h, ?_⟩
    have hzero := roundsTo_zero negative le_rfl (two_zpow_pos (-1075)).le
    rwa [withSignRat, neg_zero, ite_self] at hzero
  · exact ⟨_, denotes_written negative h hm, (shortest_spec negative h hm).1⟩

end Wireform.Double
