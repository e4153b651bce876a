import Wireform.Proofs.Double.Unique
import Wireform.Proofs.Json.Reader

/-!
# JSON numbers that are read back

The decimal text of an integer and the written form of a double are numbers of JSON: no zero stands before other
digits, and a point has digits on both sides. They are read as the integer and as the double again.
-/
namespace Wireform.Json

open Double (Mantissa Exponent Unsigned)
open Numeral (IsDigitOf)

theorem isWordChar_of_isDigitOf {c : Char} (h : IsDigitOf 10 c) : isWordChar c = true := by
  have hdigit : c.isDigit = true := (Numeral.isDigit_iff c).mpr h
  simp [isWordChar, Char.isAlphanum, hdigit]

/-! ### Words -/

theorem lookup_words_eq_none {cs : List Char} (h : ∀ w ∈ words, w.1 ≠ cs) : words.lookup cs = none := by
  rw [List.lookup_eq_none_iff]
  intro w hw
  rw [bne_iff_ne]
  exact (h w hw).symm

/-- No word begins with a digit, and no word begins with a sign and a digit. -/
theorem lookup_words_digit {c : Char} (hc : c.isDigit = true) (cs : List Char) :
    words.lookup (c :: cs) = none ∧ words.lookup ('-' :: c :: cs) = none := by
  have hwords : ∀ w ∈ words, w.1.head?.any Char.isDigit = false ∧ w.1.tail.head?.any Char.isDigit = false := by
    simp only [words, List.forall_mem_cons]
    decide
  constructor
  · apply lookup_words_eq_none
    intro w hw heq
    have hhead := (hwords w hw).1
    rw [heq, List.head?_cons, Option.any_some, hc] at hhead
    cases hhead
  · apply lookup_words_eq_none
    intro w hw heq
    have hhead := (hwords w hw).2
    rw [heq, List.tail_cons, List.head?_cons, Option.any_some, hc] at hhead
    cases hhead

/-- What begins with a digit is a number, with a sign before it or without. -/
theorem word?_withSign (negative : Bool) {c : Char} (hc : c.isDigit = true) (cs : List Char) :
    word? (Double.withSign negative (c :: cs)) = unsigned? negative (c :: cs) := by
  obtain ⟨hplain, hsigned⟩ := lookup_words_digit hc cs
  cases negative with
  | true =>
      change word? ('-' :: c :: cs) = _
      rw [word?, hsigned, Option.none_or]
      rfl
  | false =>
      have hsign : c ≠ '-' := Numeral.ne_of_isDigit hc (by decide)
      change word? (c :: cs) = _
      rw [word?, hplain, Option.none_or]
      unfold number?
      split
      · rename_i heq
        exact absurd (List.cons.inj heq).1 hsign
      · rfl

/-- A number with a sign before it or without is read to its end. -/
theorem isReadAs_withSign {negative : Bool} {c : Char} {cs : List Char} {v : Value} (hc : c.isDigit = true)
    (hchars : ∀ d ∈ c :: cs, isWordChar d = true) (h : unsigned? negative (c :: cs) = some v) :
    IsReadAs (Double.withSign negative (c :: cs)) v := by
  have hword := word?_withSign negative hc cs
  rw [h] at hword
  cases negative with
  | true => exact isReadAs_word (List.forall_mem_cons.mpr ⟨rfl, hchars⟩) hword
  | false => exact isReadAs_word hchars hword

/-! ### Integers -/

/-- The first digit of a number is no zero, except that of zero. -/
theorem head?_toDigits (n : Nat) (h : (Nat.toDigits 10 n).head? = some '0') :
    (Nat.toDigits 10 n).length = 1 := by
  obtain ⟨digits, hdigits⟩ := List.head?_eq_some_iff.mp h
  have hall : ∀ c ∈ digits, c.isDigit = true := fun c hc =>
    Numeral.isDigit_of_mem_toDigits (hdigits ▸ List.mem_cons_of_mem _ hc)
  have hvalue : n = Numeral.ofDigits digits := by
    conv_lhs => rw [← Numeral.ofDigits_toDigits n, hdigits]
    rfl
  by_contra hlong
  rw [hdigits, List.length_cons] at hlong
  have hless : n < 10 ^ digits.length := hvalue ▸ Numeral.ofDigits_lt hall
  have hle := (Nat.length_toDigits_le_iff (b := 10) (by decide) (by omega)).mpr hless
  rw [hdigits, List.length_cons] at hle
  omega

theorem head?_toDigits_ne {n : Nat} (hn : n ≠ 0) : (Nat.toDigits 10 n).head? ≠ some '0' := by
  intro h
  have hlength := head?_toDigits n h
  obtain ⟨digits, hdigits⟩ := List.head?_eq_some_iff.mp h
  rw [hdigits, List.length_cons, Nat.add_eq_right, List.length_eq_zero_iff] at hlength
  have hvalue := Numeral.ofDigits_toDigits n
  rw [hdigits, hlength] at hvalue
  exact hn hvalue.symm

/-- Digits are a number if there is one at least, and no zero before others. -/
theorem isStrict_digits {whole rest : List Char} (hwhole : ∀ c ∈ whole, IsDigitOf 10 c) (hne : whole ≠ [])
    (hzero : whole.head? = some '0' → whole.length = 1) (hrest : ∀ c ∈ rest.head?, c.isDigit = false)
    (hpoint : ∀ more, rest = '.' :: more → more.head?.any Char.isDigit = true) :
    isStrict (whole ++ rest) = true := by
  have hfirst : (!whole.isEmpty && (whole.head? != some '0' || whole.length == 1)) = true := by
    rw [Bool.and_eq_true, Bool.or_eq_true, bne_iff_ne, beq_iff_eq, Bool.not_eq_true', List.isEmpty_eq_false_iff]
    refine ⟨hne, ?_⟩
    by_cases h : whole.head? = some '0'
    · exact .inr (hzero h)
    · exact .inl h
  rw [isStrict, Double.takeDigits_stop hwhole hrest]
  simp only [hfirst, Bool.true_and]
  split
  · rename_i more
    exact hpoint more rfl
  · rfl

theorem unsigned?_toDigits (negative : Bool) {n : Nat} (hn : n < Numeral.tooLarge) :
    unsigned? negative (Nat.toDigits 10 n) = some (.int (Numeral.signed negative n)) := by
  have hdigits : ∀ c ∈ Nat.toDigits 10 n, c.isDigit = true := fun c hc => Numeral.isDigit_of_mem_toDigits hc
  have hstrict : isStrict (Nat.toDigits 10 n ++ []) = true :=
    isStrict_digits (Double.isDigitOf_toDigits n) Nat.toDigits_ne_nil (head?_toDigits n) nofun nofun
  have hlength : (Nat.toDigits 10 n).length ≤ Numeral.maxDigits :=
    (Nat.length_toDigits_le_iff (b := 10) (by decide) (by decide)).mpr hn
  rw [List.append_nil] at hstrict
  rw [unsigned?, hstrict, List.all_eq_true.mpr hdigits, if_neg (by decide), if_pos rfl, if_pos hlength,
    Numeral.ofDigits_toDigits]

/-- The decimal text of an integer is read as the integer. -/
theorem isReadAs_decimal {n : Int} {text : String} (h : Numeral.decimal? n = some text) :
    IsReadAs text.toList (.int n) := by
  have hsmall : n.natAbs < Numeral.tooLarge := by
    by_contra hlarge
    rw [Numeral.decimal?_eq_none.mpr (Nat.not_lt.mp hlarge)] at h
    cases h
  rw [Numeral.decimal?, if_pos hsmall] at h
  obtain rfl := Option.some.inj h
  have htext : (toString n).toList = Double.withSign (decide (n < 0)) (Nat.toDigits 10 n.natAbs) := by
    rw [Numeral.toList_toString, Double.withSign]
    simp only [decide_eq_true_eq]
  have hread := unsigned?_toDigits (decide (n < 0)) hsmall
  have hchars : ∀ c ∈ Nat.toDigits 10 n.natAbs, isWordChar c = true := fun c hc =>
    isWordChar_of_isDigitOf (Double.isDigitOf_toDigits _ c hc)
  obtain ⟨c, cs, hcons, hc⟩ := Numeral.toDigits_eq_cons n.natAbs
  rw [hcons, Numeral.signed_natAbs] at hread
  rw [hcons] at hchars
  rw [htext, hcons]
  exact isReadAs_withSign hc hchars hread

/-! ### Literals of doubles -/

/-- A literal as JSON has it, and not of an integer. -/
structure IsStrict (mantissa : Mantissa) (exponent : Option Exponent) : Prop where
  nonempty : mantissa.whole ≠ []
  noZero : mantissa.whole.head? = some '0' → mantissa.whole.length = 1
  fraction : mantissa.fraction ≠ some []
  notWhole : mantissa.fraction = none → exponent ≠ none

/-- What comes after the first digits of a literal: a point with digits, or a power of ten. -/
theorem IsStrict.exists_rest {mantissa : Mantissa} {exponent : Option Exponent} (h : IsStrict mantissa exponent) :
    ∃ c more, (Unsigned.decimal mantissa exponent).text = mantissa.whole ++ c :: more ∧ c.isDigit = false ∧
      (c = '.' → more.head?.any Char.isDigit = true) := by
  have hdigits := mantissa.isDigitOf
  cases hfraction : mantissa.fraction with
  | some fraction =>
      rw [hfraction] at hdigits
      obtain ⟨d, ds, rfl⟩ := List.exists_cons_of_ne_nil fun hnil : fraction = [] =>
        h.fraction (hnil ▸ hfraction)
      refine ⟨'.', d :: ds ++ exponent.elim [] Exponent.text, ?_, rfl, fun _ => ?_⟩
      · simp [Unsigned.text, Mantissa.text, hfraction]
      · have hd : d.isDigit = true := (Numeral.isDigit_iff d).mpr (hdigits d (by simp))
        simp [hd]
  | none =>
      obtain ⟨e, rfl⟩ := Option.ne_none_iff_exists'.mp (h.notWhole hfraction)
      refine ⟨e.mark, e.sign.text ++ e.digits, ?_, ?_, ?_⟩
      · simp [Unsigned.text, Mantissa.text, Exponent.text, hfraction]
      · rcases e.isMark with hmark | hmark <;> rw [hmark] <;> rfl
      · intro hmark
        rcases e.isMark with hmark' | hmark' <;> rw [hmark'] at hmark <;> cases hmark

theorem unsigned?_literal (negative : Bool) {mantissa : Mantissa} {exponent : Option Exponent}
    (h : IsStrict mantissa exponent) :
    unsigned? negative (Unsigned.decimal mantissa exponent).text =
      some (.float ((Unsigned.decimal mantissa exponent).double negative)) := by
  obtain ⟨c, more, htext, hc, hpoint⟩ := h.exists_rest
  have hstrict : isStrict (Unsigned.decimal mantissa exponent).text = true := by
    rw [htext]
    refine isStrict_digits mantissa.isDigitOf_whole h.nonempty h.noZero ?_ ?_
    · exact fun d hd => Option.some.inj hd ▸ hc
    · intro rest hrest
      obtain ⟨rfl, rfl⟩ := List.cons.inj hrest
      exact hpoint rfl
  have hall : (Unsigned.decimal mantissa exponent).text.all Char.isDigit = false := by
    rw [htext, List.all_append, List.all_cons, hc, Bool.false_and, Bool.and_false]
  rw [unsigned?, hstrict, hall, if_neg (by decide), if_neg (by decide), Unsigned.takeUnsigned?_text]

theorem isWordChar_literal (mantissa : Mantissa) (exponent : Option Exponent) :
    ∀ c ∈ (Unsigned.decimal mantissa exponent).text, isWordChar c = true := by
  have hdigits := List.forall_mem_append.mp fun c hc => isWordChar_of_isDigitOf (mantissa.isDigitOf c hc)
  rw [Unsigned.text, Mantissa.text, List.forall_mem_append, List.forall_mem_append]
  refine ⟨⟨hdigits.1, ?_⟩, ?_⟩
  · cases hfraction : mantissa.fraction with
    | none => exact List.forall_mem_nil _
    | some fraction =>
        rw [hfraction] at hdigits
        exact List.forall_mem_cons.mpr ⟨rfl, hdigits.2⟩
  · cases exponent with
    | none => exact List.forall_mem_nil _
    | some e =>
        rw [Option.elim_some, Exponent.text, List.forall_mem_cons, List.forall_mem_append]
        refine ⟨?_, ?_, fun c hc => isWordChar_of_isDigitOf (e.isDigitOf c hc)⟩
        · rcases e.isMark with hmark | hmark <;> rw [hmark] <;> rfl
        · cases e.sign with
          | absent => exact List.forall_mem_nil _
          | plus => exact List.forall_mem_singleton.mpr rfl
          | minus => exact List.forall_mem_singleton.mpr rfl

/-! ### Written forms of doubles -/

section

variable {digits : List Char}

/-- Digits on both sides of a point, the first of them no zero unless it is alone before the point. -/
theorem exists_strict_point {fraction : List Char} (hdigits : ∀ c ∈ digits, IsDigitOf 10 c) (hne : digits ≠ [])
    (hzero : digits.head? = some '0' → digits.length = 1) (hfraction : ∀ c ∈ fraction, IsDigitOf 10 c)
    (hsome : fraction ≠ []) (exponent : Option Exponent) :
    ∃ mantissa : Mantissa, mantissa.text = digits ++ '.' :: fraction ∧ IsStrict mantissa exponent := by
  obtain ⟨mantissa, htext, -, hwhole, hpoint⟩ := Double.exists_with_point hdigits hne hfraction
  refine ⟨mantissa, htext, hwhole ▸ hne, hwhole ▸ hzero, ?_, ?_⟩
  · rw [hpoint]
    exact fun h => hsome (Option.some.inj h)
  · rw [hpoint]
    exact nofun

variable (hdigits : ∀ c ∈ digits, IsDigitOf 10 c) (hne : digits ≠ []) (hzero : digits.head? ≠ some '0')

include hdigits hne hzero

theorem exists_strict_positional {k : Int} (hk : k < 0) :
    ∃ mantissa : Mantissa, mantissa.text = Double.positional digits k ∧ IsStrict mantissa none := by
  rw [Double.positional, if_neg (by omega)]
  simp only
  split
  · rename_i hshort
    have hsplit := List.take_append_drop (digits.length - (-k).toNat) digits
    have hboth := List.forall_mem_append.mp (hsplit.symm ▸ hdigits)
    obtain ⟨c, cs, hcons⟩ := List.exists_cons_of_ne_nil hne
    refine exists_strict_point hboth.1 ?_ ?_ hboth.2 ?_ none
    · exact List.ne_nil_of_length_pos (by rw [List.length_take]; omega)
    · intro hhead
      rw [List.head?_take, if_neg (by omega)] at hhead
      exact absurd hhead hzero
    · exact List.ne_nil_of_length_pos (by rw [List.length_drop]; omega)
  · refine exists_strict_point (Double.isDigitOf_zeros 1) (List.cons_ne_nil _ _) (fun _ => rfl)
      (List.forall_mem_append.mpr ⟨Double.isDigitOf_zeros _, hdigits⟩) ?_ none
    exact List.append_ne_nil_of_right_ne_nil _ hne

theorem exists_strict_pointZero {k : Int} (hk : 0 ≤ k) :
    ∃ mantissa : Mantissa, mantissa.text = Double.positional digits k ++ ['.', '0'] ∧ IsStrict mantissa none := by
  rw [Double.positional, if_pos hk]
  refine exists_strict_point (List.forall_mem_append.mpr ⟨hdigits, Double.isDigitOf_zeros _⟩)
    (List.append_ne_nil_of_left_ne_nil hne _) ?_ (Double.isDigitOf_zeros 1) (List.cons_ne_nil _ _) none
  intro hhead
  rw [List.head?_append_of_ne_nil _ hne] at hhead
  exact absurd hhead hzero

theorem exists_strict_scientific (power : Int) :
    ∃ mantissa exponent, (Unsigned.decimal mantissa exponent).text = Double.scientific digits power ∧
      IsStrict mantissa exponent := by
  obtain ⟨e, hpower, -⟩ := Double.exists_power power
  obtain ⟨c, tail, rfl⟩ := List.exists_cons_of_ne_nil hne
  have hfirst : ∀ d ∈ [c], IsDigitOf 10 d := List.forall_mem_singleton.mpr (hdigits c List.mem_cons_self)
  have hmantissa : ∃ mantissa : Mantissa,
      mantissa.text = c :: (if tail.isEmpty then [] else '.' :: tail) ∧ IsStrict mantissa (some e) := by
    cases tail with
    | nil =>
        obtain ⟨mantissa, htext, -, hwhole, hfraction⟩ := Double.exists_without_point hfirst hne
        refine ⟨mantissa, htext, hwhole ▸ hne, fun _ => by rw [hwhole]; rfl, ?_, fun _ => nofun⟩
        rw [hfraction]
        exact nofun
    | cons d tail =>
        exact exists_strict_point hfirst (List.cons_ne_nil c []) (fun _ => rfl)
          (fun d hd => hdigits d (List.mem_cons_of_mem c hd)) (List.cons_ne_nil d tail) (some e)
  obtain ⟨mantissa, htext, hstrict⟩ := hmantissa
  refine ⟨mantissa, some e, ?_, hstrict⟩
  rw [Unsigned.text, htext, Option.elim_some, hpower, Double.scientific]
  rfl

end

/-- A double that is not zero has digits. -/
theorem shortest_ne_zero (negative : Bool) {m : Nat} {e : Int} (h : Canonical m e) (hm : m ≠ 0) :
    (Double.shortest negative m e h).1 ≠ 0 := by
  intro hnone
  have hrounds := (Double.shortest_spec negative h hm).1
  rw [hnone, Nat.cast_zero, zero_mul] at hrounds
  have hzero := Double.roundsTo_zero negative le_rfl (Double.two_zpow_pos (-1075)).le
  have heq := hrounds.unique hzero
  rw [Double.zero, Double.finite.injEq] at heq
  exact hm heq.2.1

theorem exists_strict (negative : Bool) {m : Nat} {e : Int} (h : Canonical m e) :
    ∃ mantissa exponent, Double.exactText negative m e h =
      Double.withSign negative (Unsigned.decimal mantissa exponent).text ∧ IsStrict mantissa exponent := by
  have hpoint {mantissa : Mantissa} {cs : List Char} (htext : mantissa.text = cs) :
      Double.withSign negative cs = Double.withSign negative (Unsigned.decimal mantissa none).text := by
    rw [Unsigned.text, Option.elim_none, List.append_nil, htext]
  rw [Double.exactText]
  split
  · obtain ⟨mantissa, htext, hstrict⟩ := exists_strict_point (Double.isDigitOf_zeros 1) (List.cons_ne_nil _ _)
      (fun _ => rfl) (Double.isDigitOf_zeros 1) (List.cons_ne_nil _ _) none
    exact ⟨mantissa, none, hpoint htext, hstrict⟩
  rename_i hm
  have hdigits := Double.isDigitOf_toDigits (Double.shortest negative m e h).1
  have hzero := head?_toDigits_ne (shortest_ne_zero negative h hm)
  generalize Double.shortest negative m e h = found at *
  obtain ⟨n, k⟩ := found
  simp only at hdigits hzero ⊢
  split
  · split
    · rename_i hk
      obtain ⟨mantissa, htext, hstrict⟩ := exists_strict_pointZero hdigits Nat.toDigits_ne_nil hzero hk
      exact ⟨mantissa, none, hpoint htext, hstrict⟩
    · rename_i hk
      obtain ⟨mantissa, htext, hstrict⟩ := exists_strict_positional hdigits Nat.toDigits_ne_nil hzero
        (Int.not_le.mp hk)
      exact ⟨mantissa, none, hpoint htext, hstrict⟩
  · obtain ⟨mantissa, exponent, htext, hstrict⟩ := exists_strict_scientific hdigits Nat.toDigits_ne_nil hzero
      (k + (Nat.toDigits 10 n).length - 1)
    exact ⟨mantissa, exponent, by rw [htext], hstrict⟩

/-- The JSON text of a double is read as the double. -/
theorem isReadAs_double (x : Double) : IsReadAs x.json.toList (.float x) := by
  cases x with
  | nan => exact isReadAs_word (List.all_eq_true.mp rfl) rfl
  | infinite negative =>
      cases negative with
      | false => exact isReadAs_word (List.all_eq_true.mp rfl) rfl
      | true => exact isReadAs_word (List.all_eq_true.mp rfl) rfl
  | finite negative m e h =>
      obtain ⟨mantissa, exponent, htext, hstrict⟩ := exists_strict negative h
      have hsign : ¬ Numeral.StartsSign (Unsigned.decimal mantissa exponent).text := by
        have hnot := (Unsigned.decimal mantissa exponent).not_startsSign []
        rwa [List.append_nil] at hnot
      have hdouble := Double.takeUnsigned?_exactText h htext hsign
      rw [Unsigned.takeUnsigned?_text] at hdouble
      have hread := unsigned?_literal negative hstrict
      rw [(Prod.mk.inj (Option.some.inj hdouble)).1] at hread
      have hchars := isWordChar_literal mantissa exponent
      obtain ⟨c, cs, hcons⟩ := List.exists_cons_of_ne_nil hstrict.nonempty
      have hc : c.isDigit = true := (Numeral.isDigit_iff c).mpr
        (mantissa.isDigitOf_whole c (hcons ▸ List.mem_cons_self))
      obtain ⟨d, more, hrest, -⟩ := hstrict.exists_rest
      rw [hcons, List.cons_append] at hrest
      rw [hrest] at hread hchars htext
      change IsReadAs (String.ofList (Double.exactText negative m e h)).toList _
      rw [String.toList_ofList, htext]
      exact isReadAs_withSign hc hchars hread

end Wireform.Json
