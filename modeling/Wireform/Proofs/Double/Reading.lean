import Wireform.Proofs.Attempt
import Wireform.Proofs.Coercion
import Wireform.Proofs.Double.Decimal

/-!
# The number at the start of a text

The pattern of numbers has alternatives and parts that may be missing, yet its first match leaves what the scanner
leaves, so it is the longest literal. That is a text which is read as a whole: as infinity, or as the double nearest to
the number that it denotes.
-/
namespace Wireform.Double

open Numeral (Sign StartsSign IsDigitOf)
open Text (Pattern)
open Text.Pattern

section

variable {q : Pattern} {cs rest : List Char}

/-! ### The first match of the pattern -/

/-- A sign is matched if there is one, as no number begins with another. -/
theorem after?_seq_sign (hq : ∀ c cs, isSign c = true → q.after? (c :: cs) = none) (cs : List Char) :
    (Pattern.seq (.opt (.one isSign)) q).after? cs = q.after? (Numeral.takeSign cs).2 := by
  rw [after?_seq_opt, after?_seq_one]
  cases cs with
  | nil => rfl
  | cons c cs =>
      by_cases hminus : c = '-'
      · subst hminus
        simp [isSign, Numeral.takeSign, hq '-' cs (by decide)]
      by_cases hplus : c = '+'
      · subst hplus
        simp [isSign, Numeral.takeSign, hq '+' cs (by decide)]
      simp [isSign, Numeral.takeSign, hminus, hplus]

theorem takeWhile_sign {c : Char} (hc : isSign c = true) (cs : List Char) :
    (c :: cs).takeWhile Char.isDigit = [] := by
  have hdigit : c.isDigit = false := by
    simp only [isSign, Bool.or_eq_true, beq_iff_eq] at hc
    rcases hc with rfl | rfl <;> decide
  simp [hdigit]

theorem after?_exponentPattern (cs : List Char) :
    exponentPattern.after? cs = (takeExponent? cs).map (·.2) := by
  rw [exponentPattern, after?_seq_one]
  cases cs with
  | nil => rfl
  | cons c cs =>
      have hnone (c : Char) (cs : List Char) (hc : isSign c = true) :
          (atLeastOne Char.isDigit).after? (c :: cs) = none := by
        rw [after?_atLeastOne, if_pos (takeWhile_sign hc cs)]
      simp only [List.head?_cons, Option.bind_some, List.tail_cons, after?_seq_sign hnone, after?_atLeastOne,
        takeExponent?, takeDigits, isExponentMark]
      split
      · split
        · rename_i hdigits
          simp [hdigits]
        · rename_i hdigits
          simp [hdigits]
      · rfl

/-- Behind the whole part there may be a point and a fraction. -/
theorem after?_fraction (cs : List Char) :
    (Pattern.seq (.opt (.one isPoint)) (.many Char.isDigit)).after? cs =
      some (match cs with
        | '.' :: rest => rest.dropWhile Char.isDigit
        | cs => cs.dropWhile Char.isDigit) := by
  rw [after?_seq (by simp), after?_opt, Option.bind_some, after?_many, after?_one]
  cases cs with
  | nil => rfl
  | cons c cs =>
      by_cases hpoint : c = '.'
      · subst hpoint
        rfl
      · simp [isPoint, hpoint]

theorem after?_pointPattern (cs : List Char) : pointPattern.after? cs = (takePoint? cs).map (·.2.2) := by
  have htotal (cs : List Char) :
      ((Pattern.seq (.opt (.one isPoint)) (.many Char.isDigit)).after? cs).isSome = true := by
    rw [after?_fraction]
    rfl
  rw [pointPattern, after?_alt, after?_seq htotal, after?_seq_one, after?_atLeastOne, takePoint?, takeDigits]
  by_cases hwhole : cs.takeWhile Char.isDigit = []
  · have hrest : cs.dropWhile Char.isDigit = cs := by
      have h := List.takeWhile_append_dropWhile (p := Char.isDigit) (l := cs)
      rwa [hwhole] at h
    simp only [hwhole, hrest, if_true, Option.bind_none, Option.none_or]
    cases cs with
    | nil => rfl
    | cons c cs =>
        by_cases hpoint : c = '.'
        · subst hpoint
          by_cases hdigits : cs.takeWhile Char.isDigit = [] <;>
            simp [isPoint, after?_atLeastOne, takeDigits, hdigits]
        · simp [isPoint, hpoint]
  · simp only [hwhole, if_false, Option.bind_some, after?_fraction, Option.some_or]
    have hstop := Numeral.head?_dropWhile Char.isDigit cs
    generalize cs.dropWhile Char.isDigit = rest at hstop
    cases rest with
    | nil => simp [hwhole]
    | cons c rest =>
        have hdigit : c.isDigit = false := hstop c rfl
        by_cases hpoint : c = '.'
        · subst hpoint
          simp [takeDigits, hwhole]
        · simp [hpoint, hdigit, hwhole]

theorem after?_sizePattern (negative : Bool) (cs : List Char) :
    sizePattern.after? cs =
      if infinityWord.isPrefixOf cs then some (cs.drop infinityWord.length)
      else (takeUnsigned? negative cs).map (·.2) := by
  have hdecimal : (Pattern.seq pointPattern (.opt exponentPattern)).after? cs =
      (takeUnsigned? negative cs).map (·.2) := by
    rw [after?_seq (by simp), after?_pointPattern, takeUnsigned?]
    cases takePoint? cs with
    | none => rfl
    | some point =>
        obtain ⟨whole, fraction, rest⟩ := point
        simp only [Option.map_some, Option.bind_some, after?_opt, after?_exponentPattern]
        cases takeExponent? rest <;> rfl
  rw [sizePattern, after?_alt, after?_word, hdecimal]
  split <;> rfl

theorem after?_sizePattern_sign {c : Char} (hc : isSign c = true) (cs : List Char) :
    sizePattern.after? (c :: cs) = none := by
  have hword : infinityWord.isPrefixOf (c :: cs) = false := by
    simp only [isSign, Bool.or_eq_true, beq_iff_eq] at hc
    rcases hc with rfl | rfl <;> rfl
  have hpoint : c ≠ '.' := by
    rintro rfl
    cases hc
  have hdigit : c.isDigit = false := by simpa using takeWhile_sign hc cs
  rw [after?_sizePattern false, hword]
  simp [takeUnsigned?, takePoint?, takeDigits, hdigit, hpoint]

/-- The first match of the pattern leaves what the scanner leaves. -/
theorem after?_numberPattern (cs : List Char) : numberPattern.after? cs = (takeNumber? cs).map (·.2) := by
  rw [numberPattern, after?_seq_sign fun c cs hc => after?_sizePattern_sign hc cs, takeNumber?,
    after?_sizePattern (Numeral.takeSign cs).1]
  simp only
  split <;> rfl

/-- The first match of the pattern is the longest literal. -/
theorem group?_of_takeNumber? {found : List Char} {x : Double} (h : takeNumber? (found ++ rest) = some (x, rest)) :
    numberPattern.group? (found ++ rest) = some found := by
  rw [group?, after?_numberPattern, h, Option.map_some, Option.map_some, List.length_append, Nat.add_sub_cancel,
    List.take_left]

/-- An exponent without digits is left in the text. -/
example : numberPattern.group? "1.5e+x".toList = some "1.5".toList := by
  decide

/-! ### The double of a whole text -/

/-- A character that the reader of a whole text keeps as it is. -/
def IsPlain (c : Char) : Prop :=
  c.toNat < 0x80 ∧ Text.isAsciiSpace c = false ∧ c ≠ '_'

instance (c : Char) : Decidable (IsPlain c) := by
  unfold IsPlain; infer_instance

theorem isPlain_of_isDigitOf {c : Char} (h : IsDigitOf 10 c) : IsPlain c := by
  have hdigit : c.isDigit = true := (Numeral.isDigit_iff c).mpr h
  have hblank := Numeral.isBlank_of_isDigit hdigit
  have hspace : Text.isWhiteSpace c = false := by
    by_contra hc
    rw [Text.isBlank_of_isWhiteSpace (by simpa using hc)] at hblank
    cases hblank
  refine ⟨Numeral.toNat_lt_of_isDigitOf h, ?_, Numeral.ne_of_isDigit hdigit (by decide)⟩
  rw [Text.isAsciiSpace, hspace, Bool.and_false]

theorem numberText_of_isPlain (h : ∀ c ∈ cs, IsPlain c) : Text.numberText cs = cs := by
  have hascii : cs.map Text.asciiOf = cs := by
    refine (List.map_congr_left fun c hc => ?_).trans (List.map_id cs)
    exact if_pos (h c hc).1
  have hdrop {cs : List Char} (h : ∀ c ∈ cs, IsPlain c) : cs.dropWhile Text.isAsciiSpace = cs := by
    cases cs with
    | nil => rfl
    | cons c cs => exact List.dropWhile_cons_of_neg (by simp [(h c List.mem_cons_self).2.1])
  rw [Text.numberText, hascii, hdrop h, hdrop fun c hc => h c (List.mem_reverse.mp hc), List.reverse_reverse]

theorem dropUnderscores?_of_isPlain {before : Char} (hbefore : before ≠ '_') (h : ∀ c ∈ cs, IsPlain c) :
    dropUnderscores? before cs = some cs := by
  induction cs generalizing before with
  | nil => simp [dropUnderscores?, hbefore]
  | cons c cs ih =>
      have hc := (h c List.mem_cons_self).2.2
      simp [dropUnderscores?, hc, hbefore, ih hc fun d hd => h d (List.mem_cons_of_mem c hd)]

theorem isPlain_sign (s : Sign) : ∀ c ∈ s.text, IsPlain c := by
  cases s with
  | absent => nofun
  | plus => exact List.forall_mem_singleton.mpr (by decide)
  | minus => exact List.forall_mem_singleton.mpr (by decide)

theorem Exponent.isPlain (e : Exponent) : ∀ c ∈ e.text, IsPlain c := by
  rw [text, List.forall_mem_cons, List.forall_mem_append]
  refine ⟨?_, isPlain_sign e.sign, fun c hc => isPlain_of_isDigitOf (e.isDigitOf c hc)⟩
  rcases e.isMark with h | h <;> rw [h] <;> decide

theorem Mantissa.isPlain (m : Mantissa) : ∀ c ∈ m.text, IsPlain c := by
  have hdigits := List.forall_mem_append.mp fun c hc => isPlain_of_isDigitOf (m.isDigitOf c hc)
  rw [text, List.forall_mem_append]
  refine ⟨hdigits.1, ?_⟩
  cases hfraction : m.fraction with
  | none => exact List.forall_mem_nil _
  | some fraction =>
      rw [hfraction] at hdigits
      exact List.forall_mem_cons.mpr ⟨by decide, hdigits.2⟩

theorem Literal.isPlain (l : Literal) : ∀ c ∈ l.text, IsPlain c := by
  rw [text, List.forall_mem_append]
  refine ⟨isPlain_sign l.sign, ?_⟩
  cases l.size with
  | infinity => exact List.all_iff_forall_prop.mp (by decide : infinityWord.all IsPlain = true)
  | decimal m e =>
      rw [Unsigned.text, List.forall_mem_append]
      refine ⟨m.isPlain, ?_⟩
      cases e with
      | none => exact List.forall_mem_nil _
      | some e => exact e.isPlain

/-- No decimal literal is a word, in letters of either case. -/
theorem map_toLower_ne (m : Mantissa) (e : Option Exponent) {c : Char}
    (hc : c ∉ Numeral.digitsInOrder.take 10 ∧ c ≠ '.') (word : List Char) :
    (Unsigned.decimal m e).text.map Char.toLower ≠ c :: word := by
  obtain ⟨d, cs, htext, hd⟩ := Unsigned.text_eq_cons m e
  rw [htext, List.map_cons]
  intro h
  rw [← (List.cons.inj h).1] at hc
  rcases hd with hd | rfl
  · exact hc.1 hd
  · exact hc.2 (by decide)

/-- A literal is a text that is read as a whole. -/
theorem Literal.ofText?_text (l : Literal) : ofText? l.text = some l.double := by
  rw [ofText?, numberText_of_isPlain l.isPlain, dropUnderscores?_of_isPlain (by decide) l.isPlain]
  simp only [l.takeSign_text, double]
  cases l.size with
  | infinity => exact if_pos (.inr (by decide))
  | decimal m e =>
      have hinf : (Unsigned.decimal m e).text.map Char.toLower ≠ "inf".toList := map_toLower_ne m e (by decide) _
      have hinfinity : (Unsigned.decimal m e).text.map Char.toLower ≠ "infinity".toList :=
        map_toLower_ne m e (by decide) _
      have hnan : (Unsigned.decimal m e).text.map Char.toLower ≠ "nan".toList := map_toLower_ne m e (by decide) _
      simp only [hinf, hinfinity, hnan, or_self, if_false, Unsigned.takeUnsigned?_text]

end

end Wireform.Double

namespace Wireform.Attempt

open Double (Literal IsLongest numberPattern)
open Text (skipBlanks)

/-- A number is found in a text unless there is no literal at its start. The longest literal is the text that is
made a double, and that never fails: what is read is infinity for its word, and otherwise the double nearest to the
number that the literal denotes. -/
theorem longest_number (s : String) :
    ∃ found : Option Double, readFloat s.toList = .ok found ∧ toDouble (.str s) = .ok found ∧
      (Value.str s).toDouble? = found ∧
      (found = none ↔ ∀ l : Literal, ¬ l.text <+: skipBlanks s.toList) ∧
      ∀ x, found = some x → x.isNaN = false ∧ ∃ l : Literal, IsLongest l (skipBlanks s.toList) ∧
        numberPattern.group? (skipBlanks s.toList) = some l.text ∧ Double.ofText? l.text = some x ∧
        l.IsReadAs x := by
  have hread : (Value.str s).toDouble? = (Double.takeNumber? (skipBlanks s.toList)).map (·.1) := rfl
  have htoDouble : toDouble (.str s) = .ok (Value.str s).toDouble? := rfl
  rw [htoDouble, hread]
  rcases Double.takeNumber?_longest (skipBlanks s.toList) with ⟨hnone, hprefix⟩ | ⟨l, rest, htext, hlongest, hsome⟩
  · have hgroup : numberPattern.group? (skipBlanks s.toList) = none := by
      rw [Text.Pattern.group?, Double.after?_numberPattern, hnone]
      rfl
    rw [hnone]
    refine ⟨none, ?_, rfl, rfl, iff_of_true rfl hprefix, fun x hx => by cases hx⟩
    simp only [readFloat, hgroup]
  · have hgroup : numberPattern.group? (skipBlanks s.toList) = some l.text := by
      rw [← htext] at hsome ⊢
      exact Double.group?_of_takeNumber? hsome
    have hnan := Double.isNaN_of_takeNumber? hsome
    rw [hsome]
    refine ⟨some l.double, ?_, rfl, rfl, iff_of_false nofun fun h => h l hlongest.isPrefix, fun x hx => ?_⟩
    · simp only [readFloat, hgroup, l.ofText?_text, raising_some, map_ok]
    · obtain rfl := Option.some.inj hx
      exact ⟨hnan, l, hlongest, hgroup, l.ofText?_text, l.isReadAs_double⟩

end Wireform.Attempt
