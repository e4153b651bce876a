import Wireform.Double.Literal
import Wireform.Proofs.Double.Whole
import Wireform.Proofs.Numeral.Run

/-!
# Decimal literals

The grammar of the numbers that a lenient reader looks for, and that its scanner takes the longest of them. The scanner
takes every part of a literal as far as it goes, so a literal at the start of a text is exceeded only where digits
after it go on with its last part, and a part that is incomplete is left in the text.
-/
namespace Wireform.Double

open Numeral (Sign StartsSign IsDigitOf byPlace)

/-! ### Literals -/

/-- Digits with at most one point among them. -/
structure Mantissa where
  whole : List Char
  fraction : Option (List Char)
  isDigitOf : ∀ c ∈ whole ++ fraction.getD [], IsDigitOf 10 c
  nonempty : whole ++ fraction.getD [] ≠ []

structure Exponent where
  mark : Char
  sign : Sign
  digits : List Char
  isMark : mark = 'e' ∨ mark = 'E'
  isDigitOf : ∀ c ∈ digits, IsDigitOf 10 c
  nonempty : digits ≠ []

inductive Unsigned
  | infinity
  | decimal (mantissa : Mantissa) (exponent : Option Exponent)

structure Literal where
  sign : Sign
  size : Unsigned

namespace Mantissa

def text (m : Mantissa) : List Char :=
  m.whole ++ m.fraction.elim [] fun digits => '.' :: digits

end Mantissa

namespace Exponent

def text (e : Exponent) : List Char :=
  e.mark :: (e.sign.text ++ e.digits)

def value (e : Exponent) : Int :=
  Numeral.signed e.sign.negative (byPlace 10 e.digits)

end Exponent

namespace Unsigned

def text : Unsigned → List Char
  | infinity => infinityWord
  | decimal mantissa exponent => mantissa.text ++ exponent.elim [] Exponent.text

/-- The double of a literal: its digits, rounded at the place of the last one. -/
def double (negative : Bool) : Unsigned → Double
  | infinity => infinite negative
  | decimal mantissa exponent =>
    ofDecimal negative (Numeral.ofDigits (mantissa.whole ++ mantissa.fraction.getD []))
      (exponent.elim 0 Exponent.value - (mantissa.fraction.getD []).length)

end Unsigned

namespace Literal

def text (l : Literal) : List Char :=
  l.sign.text ++ l.size.text

def double (l : Literal) : Double :=
  l.size.double l.sign.negative

end Literal

/-! ### Scanning -/

section

variable {cs rest digits : List Char}

theorem takeDigits_append (h : ∀ c ∈ digits, IsDigitOf 10 c) (rest : List Char) :
    takeDigits (digits ++ rest) = (digits ++ rest.takeWhile Char.isDigit, rest.dropWhile Char.isDigit) := by
  have hdigits : ∀ c ∈ digits, c.isDigit = true := fun c hc => (Numeral.isDigit_iff c).mpr (h c hc)
  rw [takeDigits, List.takeWhile_append_of_pos hdigits, List.dropWhile_append_of_pos hdigits]

theorem takeDigits_stop (h : ∀ c ∈ digits, IsDigitOf 10 c) (hstop : ∀ c ∈ rest.head?, c.isDigit = false) :
    takeDigits (digits ++ rest) = (digits, rest) := by
  have hdigits : ∀ c ∈ digits, c.isDigit = true := fun c hc => (Numeral.isDigit_iff c).mpr (h c hc)
  rw [takeDigits, Numeral.takeWhile_run hdigits hstop, Numeral.dropWhile_run hdigits hstop]

theorem isDigitOf_takeDigits (cs : List Char) : ∀ c ∈ (takeDigits cs).1, IsDigitOf 10 c :=
  fun c hc => (Numeral.isDigit_iff c).mp (List.mem_takeWhile_imp (p := Char.isDigit) hc)

theorem takeDigits_split (cs : List Char) : (takeDigits cs).1 ++ (takeDigits cs).2 = cs :=
  List.takeWhile_append_dropWhile

/-! ### Exponents -/

namespace Exponent

theorem not_startsSign (e : Exponent) (rest : List Char) : ¬ StartsSign (e.digits ++ rest) := by
  obtain ⟨c, digits, hdigits⟩ := List.exists_cons_of_ne_nil e.nonempty
  have hc : c.isDigit = true := (Numeral.isDigit_iff c).mpr (e.isDigitOf c (hdigits ▸ List.mem_cons_self))
  rw [hdigits]
  rintro (h | h)
  · exact Numeral.ne_of_isDigit hc (by decide) (Option.some.inj h)
  · exact Numeral.ne_of_isDigit hc (by decide) (Option.some.inj h)

/-- The mark of an exponent does not go on with what stands before it. -/
theorem stops (e : Exponent) (rest : List Char) :
    (∀ c ∈ (e.text ++ rest).head?, c.isDigit = false) ∧ ∀ c ∈ (e.text ++ rest).head?, c ≠ '.' := by
  have hmark : e.mark.isDigit = false ∧ e.mark ≠ '.' := by
    rcases e.isMark with h | h <;> rw [h] <;> decide
  exact ⟨fun _ hc => Option.some.inj hc ▸ hmark.1, fun _ hc => Option.some.inj hc ▸ hmark.2⟩

/-- An exponent is taken with the digits that go on with it. -/
theorem takeExponent?_append (e : Exponent) (rest : List Char) :
    takeExponent? (e.text ++ rest) =
      some (Numeral.signed e.sign.negative (Numeral.ofDigits (e.digits ++ rest.takeWhile Char.isDigit)),
        rest.dropWhile Char.isDigit) := by
  have hmark : (e.mark == 'e' || e.mark == 'E') = true := by
    rcases e.isMark with h | h <;> simp [h]
  have hne : (e.digits ++ rest.takeWhile Char.isDigit).isEmpty = false := by
    simp [e.nonempty]
  simp only [text, List.cons_append, List.append_assoc, takeExponent?, hmark, if_true,
    Numeral.takeSign_text e.sign fun _ => e.not_startsSign rest, takeDigits_append e.isDigitOf, hne,
    Bool.false_eq_true, if_false]

theorem takeExponent?_text (e : Exponent) : takeExponent? e.text = some (e.value, []) := by
  have h := e.takeExponent?_append []
  rw [List.append_nil, List.takeWhile_nil, List.dropWhile_nil, List.append_nil, Numeral.ofDigits_eq e.isDigitOf] at h
  exact h

/-- What is taken is an exponent. -/
theorem of_takeExponent? {n : Int} (h : takeExponent? cs = some (n, rest)) :
    ∃ e : Exponent, e.text ++ rest = cs ∧ e.value = n := by
  cases cs with
  | nil => cases h
  | cons mark cs =>
      obtain ⟨sign, tail, rfl, hsign⟩ := Numeral.exists_sign cs
      rw [takeExponent?, Numeral.takeSign_text sign hsign] at h
      split at h
      · rename_i hmark
        simp only at h
        split at h
        · cases h
        · rename_i hne
          cases h
          refine ⟨⟨mark, sign, (takeDigits tail).1, by simpa using hmark, isDigitOf_takeDigits tail,
            by simpa using hne⟩, ?_, ?_⟩
          · simp only [text, List.cons_append, List.append_assoc, takeDigits_split]
          · rw [value, Numeral.ofDigits_eq (isDigitOf_takeDigits tail)]
      · cases h

end Exponent

/-! ### Mantissas -/

namespace Mantissa

theorem isDigitOf_whole (m : Mantissa) : ∀ c ∈ m.whole, IsDigitOf 10 c :=
  fun c hc => m.isDigitOf c (List.mem_append_left _ hc)

/-- A mantissa with a point is taken with the digits that go on with it. -/
theorem takePoint?_point (m : Mantissa) {fraction : List Char} (hfraction : m.fraction = some fraction)
    (rest : List Char) :
    takePoint? (m.text ++ rest) =
      some (m.whole, fraction ++ rest.takeWhile Char.isDigit, rest.dropWhile Char.isDigit) := by
  have hdigits : ∀ c ∈ fraction, IsDigitOf 10 c := fun c hc =>
    m.isDigitOf c (List.mem_append_right _ (hfraction ▸ hc))
  have hne := m.nonempty
  rw [hfraction, Option.getD_some] at hne
  have hsome : (m.whole.isEmpty && (fraction ++ rest.takeWhile Char.isDigit).isEmpty) = false := by
    simp only [ne_eq, List.append_eq_nil_iff, not_and] at hne
    simpa using fun hwhole hempty => absurd hempty (hne hwhole)
  rw [takePoint?, text, hfraction, Option.elim_some, List.append_assoc,
    takeDigits_stop m.isDigitOf_whole (by simp)]
  simp only [List.cons_append, takeDigits_append hdigits, hsome, Bool.false_eq_true, if_false]

theorem whole_ne_nil (m : Mantissa) (hfraction : m.fraction = none) : m.whole ≠ [] := by
  have hne := m.nonempty
  rwa [hfraction, Option.getD_none, List.append_nil] at hne

/-- A mantissa is taken as it is if what follows does not go on with it. -/
theorem takePoint?_stop (m : Mantissa) (hdigit : ∀ c ∈ rest.head?, c.isDigit = false)
    (hpoint : ∀ c ∈ rest.head?, c ≠ '.') :
    takePoint? (m.text ++ rest) = some (m.whole, m.fraction.getD [], rest) := by
  cases hfraction : m.fraction with
  | none =>
      have hwhole : m.whole.isEmpty = false := by simpa using m.whole_ne_nil hfraction
      rw [takePoint?, text, hfraction, Option.elim_none, List.append_nil, takeDigits_stop m.isDigitOf_whole hdigit]
      simp only
      split
      · exact absurd rfl (hpoint '.' rfl)
      · rw [hwhole]
        rfl
  | some fraction =>
      have htake : rest.takeWhile Char.isDigit = [] :=
        @Numeral.takeWhile_run Char.isDigit [] rest (List.forall_mem_nil _) hdigit
      have hdrop : rest.dropWhile Char.isDigit = rest :=
        @Numeral.dropWhile_run Char.isDigit [] rest (List.forall_mem_nil _) hdigit
      rw [m.takePoint?_point hfraction, htake, hdrop, List.append_nil, Option.getD_some]

/-- A mantissa is taken, perhaps with some of what follows. -/
theorem takePoint?_append (m : Mantissa) (rest : List Char) :
    ∃ whole fraction rest', takePoint? (m.text ++ rest) = some (whole, fraction, rest') ∧ rest' <:+ rest := by
  cases hfraction : m.fraction with
  | none =>
      have hwhole : (m.whole ++ rest.takeWhile Char.isDigit).isEmpty = false := by
        simp [m.whole_ne_nil hfraction]
      rw [takePoint?, text, hfraction, Option.elim_none, List.append_nil, takeDigits_append m.isDigitOf_whole]
      simp only [hwhole, Bool.false_and, Bool.false_eq_true, if_false]
      split
      · rename_i rest' h
        have hpoint : '.' :: rest' <:+ rest := h ▸ List.dropWhile_suffix _
        exact ⟨_, _, _, rfl, (List.dropWhile_suffix _).trans ((List.suffix_cons _ _).trans hpoint)⟩
      · exact ⟨_, _, _, rfl, List.dropWhile_suffix _⟩
  | some fraction => exact ⟨_, _, _, m.takePoint?_point hfraction rest, List.dropWhile_suffix _⟩

/-- What is taken is a mantissa. -/
theorem of_takePoint? {whole fraction : List Char} (h : takePoint? cs = some (whole, fraction, rest)) :
    ∃ m : Mantissa, m.text ++ rest = cs ∧ m.whole = whole ∧ m.fraction.getD [] = fraction := by
  have hsplit := takeDigits_split cs
  have hwhole := isDigitOf_takeDigits cs
  simp only [takePoint?] at h
  split at h
  · rename_i tail hrest
    split at h
    · cases h
    · rename_i hne
      cases h
      refine ⟨⟨_, some (takeDigits tail).1, ?_, ?_⟩, ?_, rfl, rfl⟩
      · exact List.forall_mem_append.mpr ⟨hwhole, isDigitOf_takeDigits tail⟩
      · simpa using hne
      · rw [hrest] at hsplit
        simp only [text, Option.elim_some, List.append_assoc, List.cons_append, takeDigits_split, hsplit]
  · split at h
    · cases h
    · rename_i hne
      cases h
      refine ⟨⟨_, none, ?_, ?_⟩, ?_, rfl, rfl⟩
      · simpa using hwhole
      · simpa using hne
      · simp only [text, Option.elim_none, List.append_nil, hsplit]

theorem text_eq_cons (m : Mantissa) : ∃ c cs, m.text = c :: cs ∧ (IsDigitOf 10 c ∨ c = '.') := by
  rw [text]
  cases hwhole : m.whole with
  | cons c cs => exact ⟨c, _, rfl, .inl (m.isDigitOf_whole c (hwhole ▸ List.mem_cons_self))⟩
  | nil =>
      cases hfraction : m.fraction with
      | some digits => exact ⟨'.', digits, rfl, .inr rfl⟩
      | none => exact absurd (by rw [hwhole, hfraction]; rfl) m.nonempty

end Mantissa

/-! ### Whole literals -/

namespace Unsigned

theorem takePoint?_text (m : Mantissa) (e : Option Exponent) :
    takePoint? (decimal m e).text = some (m.whole, m.fraction.getD [], e.elim [] Exponent.text) := by
  cases e with
  | none => exact @Mantissa.takePoint?_stop [] m nofun nofun
  | some e =>
      have hpoint := m.takePoint?_stop (e.stops []).1 (e.stops []).2
      rwa [List.append_nil] at hpoint

theorem takeExponent?_elim (e : Option Exponent) :
    takeExponent? (e.elim [] Exponent.text) = e.map fun e => (e.value, []) := by
  cases e with
  | none => rfl
  | some e => exact e.takeExponent?_text

/-- A literal by itself is taken to its end. -/
theorem takeUnsigned?_text (negative : Bool) (m : Mantissa) (e : Option Exponent) :
    takeUnsigned? negative (decimal m e).text = some ((decimal m e).double negative, []) := by
  simp only [takeUnsigned?, takePoint?_text, takeExponent?_elim]
  cases e <;> rfl

/-- A literal is taken, perhaps with some of what follows. -/
theorem takeUnsigned?_append (negative : Bool) (m : Mantissa) (e : Option Exponent) (rest : List Char) :
    ∃ x rest', takeUnsigned? negative ((decimal m e).text ++ rest) = some (x, rest') ∧ rest' <:+ rest := by
  cases e with
  | none =>
      obtain ⟨whole, fraction, middle, hpoint, hmiddle⟩ := m.takePoint?_append rest
      simp only [takeUnsigned?, text, Option.elim_none, List.append_nil, hpoint]
      refine ⟨_, _, rfl, ?_⟩
      cases hexponent : takeExponent? middle with
      | none => exact hmiddle
      | some taken =>
          obtain ⟨n, rest'⟩ := taken
          obtain ⟨e, rfl, -⟩ := Exponent.of_takeExponent? hexponent
          exact (List.suffix_append e.text rest').trans hmiddle
  | some e =>
      have hpoint := m.takePoint?_stop (e.stops rest).1 (e.stops rest).2
      simp only [takeUnsigned?, text, Option.elim_some, List.append_assoc, hpoint, e.takeExponent?_append,
        Option.getD_some]
      exact ⟨_, _, rfl, List.dropWhile_suffix _⟩

/-- What is taken is a literal. -/
theorem of_takeUnsigned? {negative : Bool} {x : Double} (h : takeUnsigned? negative cs = some (x, rest)) :
    ∃ m e, (decimal m e).text ++ rest = cs ∧ (decimal m e).double negative = x := by
  rw [takeUnsigned?] at h
  split at h
  · cases h
  · rename_i whole fraction middle hpoint
    obtain ⟨m, rfl, rfl, rfl⟩ := Mantissa.of_takePoint? hpoint
    cases hexponent : takeExponent? middle with
    | none =>
        rw [hexponent] at h
        cases h
        exact ⟨m, none, by simp [text], rfl⟩
    | some taken =>
        obtain ⟨n, rest'⟩ := taken
        obtain ⟨e, rfl, rfl⟩ := Exponent.of_takeExponent? hexponent
        rw [hexponent] at h
        cases h
        exact ⟨m, some e, by simp [text], rfl⟩

/-- How a decimal literal begins tells it from a sign and from the word for infinity. -/
theorem text_eq_cons (m : Mantissa) (e : Option Exponent) :
    ∃ c cs, (decimal m e).text = c :: cs ∧ (IsDigitOf 10 c ∨ c = '.') := by
  obtain ⟨c, cs, hm, hc⟩ := m.text_eq_cons
  exact ⟨c, cs ++ e.elim [] Exponent.text, by rw [text, hm, List.cons_append], hc⟩

end Unsigned

theorem ne_of_isDigitOf_or_point {c d : Char} (hc : IsDigitOf 10 c ∨ c = '.')
    (hd : d.isDigit = false ∧ d ≠ '.') : c ≠ d := by
  rcases hc with hc | rfl
  · exact Numeral.ne_of_isDigit ((Numeral.isDigit_iff c).mpr hc) hd.1
  · exact hd.2.symm

theorem Unsigned.not_startsSign (size : Unsigned) (rest : List Char) : ¬ StartsSign (size.text ++ rest) := by
  cases size with
  | infinity => rintro (h | h) <;> cases h
  | decimal m e =>
      obtain ⟨c, cs, htext, hc⟩ := text_eq_cons m e
      rw [htext]
      rintro (h | h)
      · exact ne_of_isDigitOf_or_point hc (by decide) (Option.some.inj h)
      · exact ne_of_isDigitOf_or_point hc (by decide) (Option.some.inj h)

theorem infinityWord_isPrefixOf_decimal (m : Mantissa) (e : Option Exponent) (rest : List Char) :
    infinityWord.isPrefixOf ((Unsigned.decimal m e).text ++ rest) = false := by
  obtain ⟨c, cs, htext, hc⟩ := Unsigned.text_eq_cons m e
  have hne : c ≠ 'I' := ne_of_isDigitOf_or_point hc (by decide)
  rw [htext, infinityWord_eq, List.cons_append, List.isPrefixOf, beq_eq_false_iff_ne.mpr hne.symm, Bool.false_and]

namespace Literal

theorem takeSign_append (l : Literal) (rest : List Char) :
    Numeral.takeSign (l.text ++ rest) = (l.sign.negative, l.size.text ++ rest) := by
  rw [text, List.append_assoc]
  exact Numeral.takeSign_text l.sign fun _ => l.size.not_startsSign rest

theorem takeSign_text (l : Literal) : Numeral.takeSign l.text = (l.sign.negative, l.size.text) := by
  have h := l.takeSign_append []
  rwa [List.append_nil, List.append_nil] at h

theorem takeNumber?_append (l : Literal) (rest : List Char) :
    ∃ x rest', takeNumber? (l.text ++ rest) = some (x, rest') ∧ rest' <:+ rest := by
  simp only [takeNumber?, l.takeSign_append]
  cases l.size with
  | infinity => exact ⟨_, _, rfl, List.suffix_rfl⟩
  | decimal m e =>
      rw [infinityWord_isPrefixOf_decimal]
      exact Unsigned.takeUnsigned?_append l.sign.negative m e rest

theorem of_takeNumber? {x : Double} (h : takeNumber? cs = some (x, rest)) :
    ∃ l : Literal, l.text ++ rest = cs ∧ l.double = x := by
  obtain ⟨sign, tail, rfl, hsign⟩ := Numeral.exists_sign cs
  simp only [takeNumber?, Numeral.takeSign_text sign hsign] at h
  split at h
  · rename_i hword
    cases h
    refine ⟨⟨sign, .infinity⟩, ?_, rfl⟩
    obtain ⟨rest, rfl⟩ := List.isPrefixOf_iff_prefix.mp hword
    rw [List.drop_left]
    exact List.append_assoc ..
  · obtain ⟨m, e, rfl, hx⟩ := Unsigned.of_takeUnsigned? h
    exact ⟨⟨sign, .decimal m e⟩, List.append_assoc .., hx⟩

end Literal

/-- The longest literal at the start of a text. -/
structure IsLongest (l : Literal) (cs : List Char) : Prop where
  isPrefix : l.text <+: cs
  longest : ∀ l' : Literal, l'.text <+: cs → l'.text.length ≤ l.text.length

/-- The scanner takes the longest literal, with what follows left, and nothing only where there is none. -/
theorem takeNumber?_longest (cs : List Char) :
    (takeNumber? cs = none ∧ ∀ l : Literal, ¬ l.text <+: cs) ∨
      ∃ (l : Literal) (rest : List Char), l.text ++ rest = cs ∧ IsLongest l cs ∧
        takeNumber? cs = some (l.double, rest) := by
  cases h : takeNumber? cs with
  | none =>
      refine .inl ⟨rfl, ?_⟩
      rintro l ⟨rest, rfl⟩
      obtain ⟨x, rest', hsome, -⟩ := l.takeNumber?_append rest
      rw [h] at hsome
      cases hsome
  | some taken =>
      obtain ⟨x, rest⟩ := taken
      obtain ⟨l, rfl, rfl⟩ := Literal.of_takeNumber? h
      refine .inr ⟨l, rest, rfl, ⟨⟨rest, rfl⟩, ?_⟩, rfl⟩
      rintro l' ⟨rest', heq⟩
      obtain ⟨x, rest'', hsome, hsuffix⟩ := l'.takeNumber?_append rest'
      rw [heq, h] at hsome
      cases hsome
      have hlength := congrArg List.length heq
      rw [List.length_append, List.length_append] at hlength
      have := hsuffix.length_le
      omega

end

end Wireform.Double
