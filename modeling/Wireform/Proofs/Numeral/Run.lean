import Wireform.Proofs.Numeral
import Mathlib.Data.Bool.AllAny
import Mathlib.Data.List.Induction
import Mathlib.Data.List.TakeWhile
import Mathlib.Data.Nat.Digits.Defs

/-!
# Signs and runs of digits

How a number begins in a text: a sign if there is one, and as many digits as follow. A run of digits counts by
place, the last one ones, and a digit is one of the first so many of sixteen.
-/
namespace Wireform.Numeral

/-! ### Signs -/

inductive Sign
  | absent
  | plus
  | minus
deriving DecidableEq

namespace Sign

def text : Sign → List Char
  | absent => []
  | plus => ['+']
  | minus => ['-']

def negative : Sign → Bool
  | minus => true
  | _ => false

end Sign

def StartsSign (cs : List Char) : Prop :=
  cs.head? = some '+' ∨ cs.head? = some '-'

theorem takeSign_text (s : Sign) {rest : List Char} (h : s = .absent → ¬ StartsSign rest) :
    takeSign (s.text ++ rest) = (s.negative, rest) := by
  cases s with
  | plus => rfl
  | minus => rfl
  | absent =>
      have hrest := h rfl
      cases rest with
      | nil => rfl
      | cons c rest =>
          simp only [StartsSign, List.head?_cons, Option.some.injEq, not_or] at hrest
          simp [Sign.text, Sign.negative, takeSign, hrest.1, hrest.2]

theorem exists_sign (cs : List Char) :
    ∃ (s : Sign) (rest : List Char), s.text ++ rest = cs ∧ (s = .absent → ¬ StartsSign rest) := by
  by_cases hplus : ∃ rest, cs = '+' :: rest
  · obtain ⟨rest, rfl⟩ := hplus
    exact ⟨.plus, rest, rfl, nofun⟩
  by_cases hminus : ∃ rest, cs = '-' :: rest
  · obtain ⟨rest, rfl⟩ := hminus
    exact ⟨.minus, rest, rfl, nofun⟩
  refine ⟨.absent, cs, rfl, fun _ => ?_⟩
  rintro (h | h)
  · exact hplus (List.head?_eq_some_iff.mp h)
  · exact hminus (List.head?_eq_some_iff.mp h)

/-- The text of an integer is a sign if it is negative, and its digits. -/
theorem toString_eq_sign (n : Int) :
    ∃ s : Sign, s ≠ .plus ∧ s.negative = decide (n < 0) ∧
      (toString n).toList = s.text ++ Nat.toDigits 10 n.natAbs := by
  rw [toList_toString]
  by_cases hneg : n < 0
  · exact ⟨.minus, nofun, (decide_eq_true hneg).symm, if_pos hneg⟩
  · exact ⟨.absent, nofun, (decide_eq_false hneg).symm, if_neg hneg⟩

/-! ### Runs -/

section

variable {f : Char → Bool} {run rest : List Char}

theorem takeWhile_run (hrun : ∀ c ∈ run, f c = true) (hrest : ∀ c ∈ rest.head?, f c = false) :
    (run ++ rest).takeWhile f = run := by
  rw [List.takeWhile_append_of_pos hrun]
  cases rest with
  | nil => simp
  | cons c rest => simp [hrest c rfl]

theorem dropWhile_run (hrun : ∀ c ∈ run, f c = true) (hrest : ∀ c ∈ rest.head?, f c = false) :
    (run ++ rest).dropWhile f = rest := by
  rw [List.dropWhile_append_of_pos hrun]
  cases rest with
  | nil => rfl
  | cons c rest => simp [hrest c rfl]

/-- What comes after the longest run does not go on with it. -/
theorem head?_dropWhile (f : Char → Bool) (cs : List Char) : ∀ c ∈ (cs.dropWhile f).head?, f c = false := by
  induction cs with
  | nil => simp
  | cons c cs ih =>
      by_cases hc : f c = true
      · rwa [List.dropWhile_cons_of_pos hc]
      · rw [List.dropWhile_cons_of_neg hc]
        simpa using hc

end

/-! ### Digits -/

/-- The digits in order, as far as hexadecimal. -/
def digitsInOrder : List Char :=
  ['0', '1', '2', '3', '4', '5', '6', '7', '8', '9', 'a', 'b', 'c', 'd', 'e', 'f']

/-- The digits of a base are the first so many, letters small or capital. -/
def IsDigitOf (base : Nat) (c : Char) : Prop :=
  c.toLower ∈ digitsInOrder.take base

instance (base : Nat) (c : Char) : Decidable (IsDigitOf base c) := by
  unfold IsDigitOf; infer_instance

def digitValue (c : Char) : Nat :=
  digitsInOrder.idxOf c.toLower

/-- The number of a run of digits by place. -/
def byPlace (base : Nat) (digits : List Char) : Nat :=
  Nat.ofDigits base (digits.map digitValue).reverse

@[simp] theorem byPlace_nil (base : Nat) : byPlace base [] = 0 := rfl

theorem byPlace_append (base : Nat) (digits more : List Char) :
    byPlace base (digits ++ more) = byPlace base digits * base ^ more.length + byPlace base more := by
  rw [byPlace, List.map_append, List.reverse_append, Nat.ofDigits_append, List.length_reverse, List.length_map,
    Nat.add_comm, Nat.mul_comm]
  rfl

theorem byPlace_concat (base : Nat) (digits : List Char) (c : Char) :
    byPlace base (digits ++ [c]) = base * byPlace base digits + digitValue c := by
  rw [byPlace_append, List.length_singleton, Nat.pow_one, Nat.mul_comm]
  rfl

/-- A text from a run of digits on: the longest run, which may be empty, and what follows. -/
structure Run (base : Nat) where
  digits : List Char
  rest : List Char
  isDigitOf : ∀ c ∈ digits, IsDigitOf base c
  ends : ∀ c ∈ rest.head?, ¬ IsDigitOf base c

namespace Run

variable {base : Nat}

def text (r : Run base) : List Char :=
  r.digits ++ r.rest

theorem exists_text (base : Nat) (cs : List Char) : ∃ r : Run base, r.text = cs := by
  let f (c : Char) : Bool := decide (IsDigitOf base c)
  refine ⟨⟨cs.takeWhile f, cs.dropWhile f, fun c hc => ?_, fun c hc => ?_⟩, List.takeWhile_append_dropWhile⟩
  · exact of_decide_eq_true (List.mem_takeWhile_imp (p := f) hc)
  · exact of_decide_eq_false (head?_dropWhile f cs c hc)

theorem takeWhile_text (r : Run base) {f : Char → Bool} (hf : ∀ c, f c = true ↔ IsDigitOf base c) :
    r.text.takeWhile f = r.digits :=
  takeWhile_run (fun c hc => (hf c).mpr (r.isDigitOf c hc))
    fun c hc => Bool.eq_false_iff.mpr fun h => r.ends c hc ((hf c).mp h)

end Run

/-! ### What the code takes for digits -/

/-- Of the first characters one knows whether they are digits, and which. -/
theorem digit_of_small {c : Char} (hc : c.toNat < 128) :
    (isDigitIn 16 c = true ↔ IsDigitOf 16 c) ∧ (c.isDigit = true ↔ IsDigitOf 10 c) ∧
      (IsDigitOf 16 c → (digit? 16 c).getD 0 = digitValue c) ∧ (IsDigitOf 10 c → c.toNat - 48 = digitValue c) := by
  have hall : ∀ n < 128,
      (isDigitIn 16 (Char.ofNat n) = true ↔ IsDigitOf 16 (Char.ofNat n)) ∧
        ((Char.ofNat n).isDigit = true ↔ IsDigitOf 10 (Char.ofNat n)) ∧
        (IsDigitOf 16 (Char.ofNat n) → (digit? 16 (Char.ofNat n)).getD 0 = digitValue (Char.ofNat n)) ∧
        (IsDigitOf 10 (Char.ofNat n) → (Char.ofNat n).toNat - 48 = digitValue (Char.ofNat n)) := by
    decide +kernel
  have h := hall c.toNat hc
  rwa [Char.ofNat_toNat] at h

theorem toNat_lt_of_isDigitOf {base : Nat} {c : Char} (h : IsDigitOf base c) : c.toNat < 128 := by
  have hdigit : c.toLower ∈ digitsInOrder := List.mem_of_mem_take h
  unfold Char.toLower at hdigit
  split at hdigit
  · rename_i hupper
    simp only [UInt32.le_iff_toNat_le] at hupper
    exact Nat.lt_of_le_of_lt hupper.2 (by decide)
  · have hall : digitsInOrder.all (fun d => d.toNat < 128) = true := by decide
    exact List.all_iff_forall_prop.mp hall c hdigit

theorem toNat_lt_of_isDigitIn {c : Char} (h : isDigitIn 16 c = true) : c.toNat < 128 := by
  by_contra hlarge
  have hlower : ¬ c.toNat ≤ 57 := by omega
  have hletter : ¬ c.toNat ≤ 122 := by omega
  have hcapital : ¬ c.toNat ≤ 90 := by omega
  simp [isDigitIn, digit?, hlower, hletter, hcapital] at h

theorem isDigitIn_iff (c : Char) : isDigitIn 16 c = true ↔ IsDigitOf 16 c :=
  ⟨fun h => (digit_of_small (toNat_lt_of_isDigitIn h)).1.mp h,
    fun h => (digit_of_small (toNat_lt_of_isDigitOf h)).1.mpr h⟩

theorem isDigit_iff (c : Char) : c.isDigit = true ↔ IsDigitOf 10 c := by
  refine ⟨fun h => (digit_of_small ?_).2.1.mp h,
    fun h => (digit_of_small (toNat_lt_of_isDigitOf h)).2.1.mpr h⟩
  exact Nat.lt_of_le_of_lt (toNat_of_isDigit h).2 (by decide)

theorem ofDigits_eq {digits : List Char} (h : ∀ c ∈ digits, IsDigitOf 10 c) :
    ofDigits digits = byPlace 10 digits := by
  induction digits using List.reverseRecOn with
  | nil => rfl
  | append_singleton digits c ih =>
      have hc : IsDigitOf 10 c := h c (by simp)
      have hvalue : c.toNat - 48 = digitValue c := (digit_of_small (toNat_lt_of_isDigitOf hc)).2.2.2 hc
      have hbefore : Nat.ofDigitChars 10 digits 0 = byPlace 10 digits :=
        ih fun d hd => h d (List.mem_append_left _ hd)
      rw [byPlace_concat, ofDigits, Nat.ofDigitChars_append, hbefore, ← hvalue]
      rfl

theorem ofDigitsIn_eq {digits : List Char} (h : ∀ c ∈ digits, IsDigitOf 16 c) :
    ofDigitsIn 16 digits = byPlace 16 digits := by
  induction digits using List.reverseRecOn with
  | nil => rfl
  | append_singleton digits c ih =>
      have hc : IsDigitOf 16 c := h c (by simp)
      have hvalue : (digit? 16 c).getD 0 = digitValue c :=
        (digit_of_small (toNat_lt_of_isDigitOf hc)).2.2.1 hc
      have hbefore : ofDigitsIn 16 digits = byPlace 16 digits :=
        ih fun d hd => h d (List.mem_append_left _ hd)
      rw [byPlace_concat, ← hbefore, ← hvalue, ofDigitsIn, List.foldl_append]
      rfl

end Wireform.Numeral
