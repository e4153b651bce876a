import Wireform.Coercion
import Wireform.Proofs.Numeral
import Mathlib.Data.List.TakeWhile

/-!
# Whole numbers as doubles

A whole number below `2 ^ 53` is a double without any rounding, and the text of such a number is read as that
double. So a lenient reader gives back every whole number of that size.
-/
namespace Wireform.Double

theorem floorLog2_one {n : Nat} (hn : n ≠ 0) : floorLog2 n 1 = n.log2 := by
  have h : 2 ^ n.log2 ≤ n := Nat.log2_self_le hn
  have hone : Nat.log2 1 = 0 := rfl
  simp [floorLog2, hone, h]

theorem roundDiv_one (n : Nat) : roundDiv n 1 = n := by
  simp [roundDiv, Nat.mod_one]

/-- The mantissa of a whole number is the number moved up to the full width. -/
theorem canonical_whole {n : Nat} (hn : n ≠ 0) (hlt : n < 2 ^ 53) :
    Canonical (n * 2 ^ (52 - n.log2)) ((n.log2 : Int) - 52) := by
  have hlog : n.log2 ≤ 52 := by
    have := (Nat.log2_lt hn).mpr hlt
    omega
  have hpow : 2 ^ n.log2 * 2 ^ (52 - n.log2) = 2 ^ 52 := by
    rw [← Nat.pow_add]
    congr 1
    omega
  have hlow : 2 ^ 52 ≤ n * 2 ^ (52 - n.log2) :=
    calc 2 ^ 52 = 2 ^ n.log2 * 2 ^ (52 - n.log2) := hpow.symm
      _ ≤ n * 2 ^ (52 - n.log2) := Nat.mul_le_mul_right _ (Nat.log2_self_le hn)
  have hhigh : n * 2 ^ (52 - n.log2) < 2 ^ 53 :=
    calc n * 2 ^ (52 - n.log2) < 2 ^ (n.log2 + 1) * 2 ^ (52 - n.log2) :=
        Nat.mul_lt_mul_of_pos_right Nat.lt_log2_self (Nat.two_pow_pos _)
      _ = 2 ^ 52 * 2 := by rw [Nat.pow_succ, Nat.mul_right_comm, hpow]
      _ = 2 ^ 53 := (Nat.pow_succ ..).symm
  exact ⟨hhigh, by omega, by omega, .inl hlow⟩

theorem nearest_whole (negative : Bool) {n : Nat} (hn : n ≠ 0) (hlt : n < 2 ^ 53) :
    nearest negative n 1 =
      .finite negative (n * 2 ^ (52 - n.log2)) ((n.log2 : Int) - 52) (canonical_whole hn hlt) := by
  have hc := canonical_whole hn hlt
  have hlog : n.log2 ≤ 52 := by
    have := (Nat.log2_lt hn).mpr hlt
    omega
  have hexp : max ((n.log2 : Int) - 52) (-1074) = (n.log2 : Int) - 52 := by omega
  have hneg : (-((n.log2 : Int) - 52)).toNat = 52 - n.log2 := by omega
  have hpos : ((n.log2 : Int) - 52).toNat = 0 := by omega
  simp only [nearest, if_neg hn, floorLog2_one hn, hexp, hneg, hpos, Nat.pow_zero, Nat.mul_one,
    roundDiv_one]
  rw [if_neg (Nat.ne_of_lt hc.1), ofParts, dif_pos hc]

/-- A whole number of that size comes back from its double. -/
theorem truncate?_nearest (negative : Bool) {n : Nat} (hlt : n < 2 ^ 53) :
    (nearest negative n 1).truncate? = some (Numeral.signed negative n) := by
  by_cases hn : n = 0
  · simp only [hn, nearest, if_true, zero, truncate?, num, Nat.zero_mul, Nat.zero_div,
      Numeral.signed]
  · have hlog : n.log2 ≤ 52 := by
      have := (Nat.log2_lt hn).mpr hlt
      omega
    have hneg : (-((n.log2 : Int) - 52)).toNat = 52 - n.log2 := by omega
    have hpos : ((n.log2 : Int) - 52).toNat = 0 := by omega
    simp only [nearest_whole negative hn hlt, truncate?, num, den, hneg, hpos, Nat.pow_zero,
      Nat.mul_one, Nat.mul_div_cancel _ (Nat.two_pow_pos _), Numeral.signed]

theorem ofDecimal_zero (negative : Bool) (n : Nat) :
    ofDecimal negative n 0 = nearest negative n 1 := by
  by_cases hn : n = 0
  · simp [ofDecimal, nearest, hn]
  · have : ¬ ((n.log2 : Int) + 325 ≤ 0) := by omega
    simp [ofDecimal, hn, this]

/-- A run of digits alone is read as the whole number that it denotes. -/
theorem takeUnsigned?_digits (negative : Bool) (n : Nat) :
    takeUnsigned? negative (Nat.toDigits 10 n) = some (nearest negative n 1, []) := by
  have hall : ∀ c ∈ Nat.toDigits 10 n, c.isDigit = true := fun c => Numeral.isDigit_of_mem_toDigits
  have htake : (Nat.toDigits 10 n).takeWhile Char.isDigit = Nat.toDigits 10 n :=
    List.takeWhile_eq_self_iff.mpr hall
  have hdrop : (Nat.toDigits 10 n).dropWhile Char.isDigit = [] :=
    List.dropWhile_eq_nil_iff.mpr hall
  have hpoint : takePoint? (Nat.toDigits 10 n) = some (Nat.toDigits 10 n, [], []) := by
    have hne : (Nat.toDigits 10 n).isEmpty = false := by simp
    simp only [takePoint?, takeDigits, htake, hdrop, hne, Bool.false_eq_true, if_false]
  simp only [takeUnsigned?, hpoint, takeExponent?, List.append_nil, Numeral.ofDigits_toDigits,
    Option.getD_none, List.length_nil, Int.natCast_zero, Int.sub_zero, ofDecimal_zero]

theorem infinityWord_eq : infinityWord = ['I', 'n', 'f', 'i', 'n', 'i', 't', 'y'] := rfl

/-- No number begins like the word for infinity. -/
theorem infinityWord_isPrefixOf_digits {cs : List Char} {c : Char} (h : c.isDigit = true) :
    infinityWord.isPrefixOf (c :: cs) = false := by
  have hi : c ≠ 'I' := Numeral.ne_of_isDigit h (by decide)
  simp only [infinityWord_eq, List.isPrefixOf, Bool.and_eq_false_iff, beq_eq_false_iff_ne]
  exact .inl hi.symm

/-- The text of an integer is read to its end, as the double nearest to the integer. -/
theorem takeNumber?_toString (n : Int) :
    takeNumber? (toString n).toList = some (ofInt n, []) := by
  obtain ⟨c, cs, h, hc⟩ := Numeral.toDigits_eq_cons n.natAbs
  rw [Numeral.toList_toString, ofInt]
  by_cases hneg : n < 0
  · rw [if_pos hneg, decide_eq_true hneg]
    simp only [takeNumber?, Numeral.takeSign, h, infinityWord_isPrefixOf_digits hc,
      Bool.false_eq_true, if_false]
    rw [← h, takeUnsigned?_digits]
  · have hsign : Numeral.takeSign (c :: cs) = (false, c :: cs) := by
      have hminus : c ≠ '-' := Numeral.ne_of_isDigit hc (by decide)
      have hplus : c ≠ '+' := Numeral.ne_of_isDigit hc (by decide)
      simp [Numeral.takeSign, hminus, hplus]
    rw [if_neg hneg, decide_eq_false hneg]
    simp only [takeNumber?, h, hsign, infinityWord_isPrefixOf_digits hc, Bool.false_eq_true, if_false]
    rw [← h, takeUnsigned?_digits]

theorem truncate?_ofInt {n : Int} (hn : n.natAbs < 2 ^ 53) : (ofInt n).truncate? = some n := by
  rw [ofInt, truncate?_nearest _ hn, Numeral.signed_natAbs]

theorem isFinite_ofInt {n : Int} (hn : n.natAbs < 2 ^ 53) : (ofInt n).isFinite = true := by
  have htruncate := truncate?_ofInt hn
  cases hx : ofInt n with
  | finite => rfl
  | _ =>
      rw [hx] at htruncate
      cases htruncate

end Wireform.Double

namespace Wireform.Value

theorem looseText_int {n : Int} (hn : n.natAbs < Numeral.tooLarge) :
    (Value.int n).looseText = toString n := by
  simp only [looseText, looseInt, Numeral.decimal?, if_pos hn, Option.getD_some]

/-- An integer that has a text is read as the double nearest to it. -/
theorem toDouble?_int {n : Int} (hn : n.natAbs < Numeral.tooLarge) :
    (Value.int n).toDouble? = some (Double.ofInt n) := by
  have hskip : Text.skipBlanks (toString n).toList = (toString n).toList := by
    obtain ⟨c, cs, h, hc⟩ := Numeral.toString_eq_cons n
    rw [h, Text.skipBlanks, List.dropWhile_cons_of_neg (by simp [hc])]
  simp only [toDouble?, readFloat?, looseText_int hn, hskip, Double.takeNumber?_toString,
    Option.map_some]

end Wireform.Value
