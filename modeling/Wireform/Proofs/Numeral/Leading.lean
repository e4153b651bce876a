import Wireform.Proofs.Attempt
import Wireform.Proofs.Numeral.Run

/-!
# The integer at the start of a text

A text is taken apart into blanks, a sign, and a run of digits with what follows it; after the mark of hexadecimal
the digits are those of sixteen. Every text has these parts, and the integer that a lenient reader finds in it
depends on the sign and the digits alone. An integer that has a decimal text is found in it again.
-/
namespace Wireform.Numeral

/-- Whether digits are marked as hexadecimal. -/
def IsMarked (cs : List Char) : Prop :=
  cs.take 2 = ['0', 'x'] ∨ cs.take 2 = ['0', 'X']

/-- What stands after the blanks and the sign. -/
inductive Body
  | hexadecimal (mark : Char) (isMark : mark = 'x' ∨ mark = 'X') (run : Run 16)
  | decimal (run : Run 10) (unmarked : ¬ IsMarked run.text)

namespace Body

def text : Body → List Char
  | hexadecimal mark _ run => '0' :: mark :: run.text
  | decimal run _ => run.text

/-- The number of the digits, of which there may be any count but none if they are hexadecimal, and at most 4300
if they are decimal. -/
def value? : Body → Option Nat
  | hexadecimal _ _ run => if run.digits = [] then none else some (byPlace 16 run.digits)
  | decimal run _ =>
    if 1 ≤ run.digits.length ∧ run.digits.length ≤ 4300 then some (byPlace 10 run.digits) else none

theorem exists_text (cs : List Char) : ∃ body : Body, body.text = cs := by
  by_cases h : IsMarked cs
  · obtain ⟨run, hrun⟩ := Run.exists_text 16 (cs.drop 2)
    have hsplit (mark : Char) (hmark : cs.take 2 = ['0', mark]) : '0' :: mark :: run.text = cs := by
      rw [hrun]
      exact (congrArg (· ++ cs.drop 2) hmark.symm).trans (List.take_append_drop 2 cs)
    rcases h with h | h
    · exact ⟨.hexadecimal 'x' (.inl rfl) run, hsplit 'x' h⟩
    · exact ⟨.hexadecimal 'X' (.inr rfl) run, hsplit 'X' h⟩
  · obtain ⟨run, rfl⟩ := Run.exists_text 10 cs
    exact ⟨.decimal run h, rfl⟩

end Body

/-- A text from its start on. A sign that is there is not looked for again, and blanks are skipped before it
only. -/
structure Leading where
  blanks : List Char
  sign : Sign
  body : Body
  isBlank : ∀ c ∈ blanks, Text.isBlank c = true
  begins : sign = .absent → ¬ StartsSign body.text ∧ ∀ c ∈ body.text.head?, Text.isBlank c = false

namespace Leading

def text (p : Leading) : String :=
  String.ofList (p.blanks ++ (p.sign.text ++ p.body.text))

def value? (p : Leading) : Option Int :=
  p.body.value?.map (signed p.sign.negative)

theorem exists_text (s : String) : ∃ p : Leading, p.text = s := by
  obtain ⟨sign, rest, hsign, hbegins⟩ := exists_sign (Text.skipBlanks s.toList)
  obtain ⟨body, rfl⟩ := Body.exists_text rest
  refine ⟨⟨s.toList.takeWhile Text.isBlank, sign, body, fun c => List.mem_takeWhile_imp, fun h => ?_⟩, ?_⟩
  · refine ⟨hbegins h, ?_⟩
    have hhead := head?_dropWhile Text.isBlank s.toList
    subst h
    rwa [show s.toList.dropWhile Text.isBlank = body.text from hsign.symm] at hhead
  · rw [text, hsign]
    exact (congrArg String.ofList List.takeWhile_append_dropWhile).trans String.ofList_toList

theorem skipBlanks_text (p : Leading) : Text.skipBlanks p.text.toList = p.sign.text ++ p.body.text := by
  rw [text, String.toList_ofList]
  apply dropWhile_run p.isBlank
  intro c hc
  cases hsign : p.sign with
  | absent =>
      rw [hsign] at hc
      exact (p.begins hsign).2 c hc
  | plus =>
      rw [hsign] at hc
      obtain rfl := Option.some.inj hc
      decide
  | minus =>
      rw [hsign] at hc
      obtain rfl := Option.some.inj hc
      decide

theorem readInt?_text (p : Leading) : Value.readInt? p.text.toList = p.value? := by
  rw [Value.readInt?, skipBlanks_text, takeSign_text p.sign fun h => (p.begins h).1, value?]
  cases p.body with
  | hexadecimal mark isMark run =>
      have hmarked : (Body.hexadecimal mark isMark run).text.take 2 = ['0', 'x'] ∨
          (Body.hexadecimal mark isMark run).text.take 2 = ['0', 'X'] := by
        rcases isMark with rfl | rfl
        · exact .inl rfl
        · exact .inr rfl
      have hdrop : (Body.hexadecimal mark isMark run).text.drop 2 = run.text := rfl
      simp only [if_pos hmarked, hdrop, run.takeWhile_text isDigitIn_iff, ofDigitsIn_eq run.isDigitOf,
        Body.value?]
      split <;> rfl
  | decimal run unmarked =>
      have hcount : (run.digits = [] ∨ maxDigits < run.digits.length) ↔
          ¬ (1 ≤ run.digits.length ∧ run.digits.length ≤ 4300) := by
        rw [← List.length_eq_zero_iff, maxDigits]
        omega
      simp only [Body.text, IsMarked] at unmarked ⊢
      simp only [if_neg unmarked, run.takeWhile_text isDigit_iff, ofDigits_eq run.isDigitOf, hcount, ite_not,
        Body.value?]
      split <;> rfl

end Leading

/-! ### Texts of integers -/

theorem not_isMarked {cs : List Char} (h : ∀ c ∈ cs, c ≠ 'x' ∧ c ≠ 'X') : ¬ IsMarked cs := by
  have hmem {mark : Char} (heq : cs.take 2 = ['0', mark]) : mark ∈ cs := by
    apply List.mem_of_mem_take (i := 2)
    rw [heq]
    exact List.mem_cons_of_mem _ List.mem_cons_self
  rintro (heq | heq)
  · exact (h 'x' (hmem heq)).1 rfl
  · exact (h 'X' (hmem heq)).2 rfl

/-- Digits begin with neither a sign nor a blank. -/
theorem Run.begins (run : Run 10) (hne : run.digits ≠ []) :
    ¬ StartsSign run.text ∧ ∀ c ∈ run.text.head?, Text.isBlank c = false := by
  obtain ⟨c, digits, hdigits⟩ := List.exists_cons_of_ne_nil hne
  have hc : c.isDigit = true := (isDigit_iff c).mpr (run.isDigitOf c (hdigits ▸ List.mem_cons_self))
  have hhead : run.text.head? = some c := by
    rw [Run.text, hdigits]
    rfl
  rw [StartsSign, hhead]
  refine ⟨?_, fun d hd => Option.some.inj hd ▸ isBlank_of_isDigit hc⟩
  rintro (h | h)
  · exact ne_of_isDigit hc (by decide) (Option.some.inj h)
  · exact ne_of_isDigit hc (by decide) (Option.some.inj h)

/-- The integer of a sign and digits, whatever follows. -/
theorem readInt?_decimal (sign : Sign) (run : Run 10) (unmarked : ¬ IsMarked run.text) (hne : run.digits ≠ [])
    (hshort : run.digits.length ≤ 4300) :
    Value.readInt? (sign.text ++ run.text) = some (signed sign.negative (byPlace 10 run.digits)) := by
  let p : Leading := ⟨[], sign, .decimal run unmarked, List.forall_mem_nil _, fun _ => run.begins hne⟩
  have hvalue : p.value? = some (signed sign.negative (byPlace 10 run.digits)) := by
    rw [Leading.value?, Body.value?]
    exact congrArg (Option.map _) (if_pos ⟨List.length_pos_iff.mpr hne, hshort⟩)
  have htext : p.text.toList = sign.text ++ run.text := String.toList_ofList
  rw [← hvalue, ← htext, p.readInt?_text]

theorem natAbs_lt_tooLarge {n : Int} (h : (Nat.toDigits 10 n.natAbs).length ≤ 4300) :
    n.natAbs < tooLarge :=
  (Nat.length_toDigits_le_iff (by decide) (by decide)).mp h

/-- The decimal text of an integer is read as it. -/
theorem readInt?_toString {n : Int} (h : (Nat.toDigits 10 n.natAbs).length ≤ 4300) :
    Value.readInt? (toString n).toList = some n := by
  obtain ⟨sign, -, hsign, htext⟩ := toString_eq_sign n
  let run : Run 10 := ⟨Nat.toDigits 10 n.natAbs, [], fun c hc => (isDigit_iff c).mp (isDigit_of_mem_toDigits hc), nofun⟩
  have hrun : run.text = Nat.toDigits 10 n.natAbs := List.append_nil _
  have unmarked : ¬ IsMarked run.text := by
    apply not_isMarked
    intro c hc
    rw [hrun] at hc
    have hdigit := isDigit_of_mem_toDigits hc
    exact ⟨ne_of_isDigit hdigit (by decide), ne_of_isDigit hdigit (by decide)⟩
  have hread := readInt?_decimal sign run unmarked Nat.toDigits_ne_nil h
  rw [hrun, ← htext, ← ofDigits_eq run.isDigitOf, hsign] at hread
  rw [hread, ofDigits_toDigits, signed_natAbs]

end Wireform.Numeral

namespace Wireform.Value

open Numeral (Leading)

/-- Every text has the parts of one that begins with an integer, and a lenient reader finds exactly the integer of
these parts. An integer that has a decimal text is found as it is, in that text, and in a list of it alone. -/
theorem leading_integer :
    (∀ s : String, ∃ p : Leading, p.text = s) ∧
    (∀ p : Leading, Attempt.toInt (.str p.text) = .ok p.value? ∧ (str p.text).toInt? = p.value?) ∧
    ∀ n : Int, (Nat.toDigits 10 n.natAbs).length ≤ 4300 →
      Attempt.toInt (.int n) = .ok (some n) ∧
      (∃ text, Attempt.looseText (.int n) = .ok text ∧ Attempt.toInt (.str text) = .ok (some n)) ∧
      Attempt.toInt (.list [.int n]) = .ok (some n) := by
  have hstring (s : String) : Attempt.toInt (.str s) = .ok (readInt? s.toList) := Attempt.toInt_eq rfl
  refine ⟨Leading.exists_text, fun p => ?_, fun n h => ⟨rfl, ⟨toString n, ?_, ?_⟩, ?_⟩⟩
  · rw [hstring, p.readInt?_text]
    exact ⟨rfl, p.readInt?_text⟩
  · rw [Attempt.looseText_eq _ rfl, looseText_int (Numeral.natAbs_lt_tooLarge h)]
  · rw [hstring, Numeral.readInt?_toString h]
  · have hlist : (list [int n]).toInt? = readInt? (int n).looseText.toList := rfl
    rw [Attempt.toInt_eq rfl, hlist, looseText_int (Numeral.natAbs_lt_tooLarge h), Numeral.readInt?_toString h]

theorem leading_integer_signed :
    Attempt.toInt (.str " -0x1Fg") = .ok (some (-31)) ∧ Attempt.toInt (.list [.int (-42)]) = .ok (some (-42)) := by
  let run : Numeral.Run 16 := ⟨['1', 'F'], ['g'], List.all_iff_forall_prop.mp (by decide),
    fun _ hc => Option.some.inj hc ▸ (by decide : ¬ Numeral.IsDigitOf 16 'g')⟩
  let p : Leading := ⟨[' '], .minus, .hexadecimal 'x' (.inl rfl) run,
    List.forall_mem_singleton.mpr (by decide), nofun⟩
  exact ⟨(leading_integer.2.1 p).1, (leading_integer.2.2 (-42) (by decide)).2.2⟩

end Wireform.Value
