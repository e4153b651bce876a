import Wireform.Proofs.Double.Text
import Wireform.Schema.Decode

/-!
# Integers read as doubles

The loose text of an integer is a decimal literal, or the word for infinity where there are too many digits for a
decimal text. Such an integer lies far beyond the largest double, so the word stands for what the integer is rounded
to, and every integer is read as the double nearest to it. Rounding keeps the order of numbers, and reading keeps it
across the limit of the texts too.
-/
namespace Wireform.Double

open Text (skipBlanks)

/-! ### The order of doubles -/

/-- Where a double lies among the rational numbers with both infinities. -/
def place? : Double → Option (WithBot (WithTop ℚ))
  | nan => none
  | infinite true => some ⊥
  | infinite false => some ⊤
  | finite negative m e _ => some ↑(↑(withSignRat negative (magnitude m e)) : WithTop ℚ)

def AtMost (x y : Double) : Prop :=
  ∃ p q, x.place? = some p ∧ y.place? = some q ∧ p ≤ q

theorem infinite_atMost {y : Double} (hy : y.isNaN = false) : AtMost (infinite true) y := by
  cases y with
  | nan => cases hy
  | infinite negative => cases negative <;> exact ⟨_, _, rfl, rfl, bot_le⟩
  | finite negative m e h => exact ⟨_, _, rfl, rfl, bot_le⟩

theorem atMost_infinite {x : Double} (hx : x.isNaN = false) : AtMost x (infinite false) := by
  have htop (p : WithBot (WithTop ℚ)) : p ≤ ((⊤ : WithTop ℚ) : WithBot (WithTop ℚ)) := le_top
  cases x with
  | nan => cases hx
  | infinite negative => cases negative <;> exact ⟨_, _, rfl, rfl, htop _⟩
  | finite negative m e h => exact ⟨_, _, rfl, rfl, htop _⟩

theorem atMost_finite {negative negative' : Bool} {m m' : Nat} {e e' : Int} (h : Canonical m e)
    (h' : Canonical m' e') (hle : withSignRat negative (magnitude m e) ≤ withSignRat negative' (magnitude m' e')) :
    AtMost (finite negative m e h) (finite negative' m' e' h') :=
  ⟨_, _, rfl, rfl, WithBot.coe_le_coe.mpr (WithTop.coe_le_coe.mpr hle)⟩

theorem atMost_self {x : Double} (hx : x.isNaN = false) : AtMost x x := by
  cases x with
  | nan => cases hx
  | infinite negative => cases negative <;> exact ⟨_, _, rfl, rfl, le_rfl⟩
  | finite negative m e h => exact ⟨_, _, rfl, rfl, le_rfl⟩

/-! ### Rounding keeps the order -/

section

variable {q r : ℚ} {x y : Double}

theorem RoundsTo.isNaN {negative : Bool} (h : RoundsTo negative q x) : x.isNaN = false := by
  cases h <;> rfl

theorem RoundsTo.eq_infinite {negative : Bool} (h : RoundsTo negative q x) (hbeyond : beyond ≤ |q|) :
    x = .infinite negative := by
  cases h with
  | finite _ hbelow => exact absurd hbelow (not_lt.mpr hbeyond)
  | infinite _ => rfl

/-- The middle between two numbers is not passed by what is nearer to the upper one. -/
theorem middle_le {a b : ℚ} (hab : a < b) (hnear : |q - b| ≤ |q - a|) : a + b ≤ 2 * q := by
  by_contra hbelow
  rw [not_le] at hbelow
  have hb : |q - b| = b - q := by rw [abs_sub_comm, abs_of_pos (by linarith)]
  rcases abs_cases (q - a) with ⟨ha, -⟩ | ⟨ha, -⟩ <;> linarith

theorem le_middle {a b : ℚ} (hab : a < b) (hnear : |q - a| ≤ |q - b|) : 2 * q ≤ a + b := by
  have h := middle_le (q := -q) (neg_lt_neg hab) (by
    rwa [neg_sub_neg, neg_sub_neg, abs_sub_comm a, abs_sub_comm b])
  linarith

/-- A number is not rounded to more than a larger number is. -/
theorem RoundsTo.atMost (hx : RoundsTo (decide (q < 0)) q x) (hy : RoundsTo (decide (r < 0)) r y) (hlt : q < r) :
    AtMost x y := by
  have hxNaN := hx.isNaN
  have hyNaN := hy.isNaN
  cases hx with
  | infinite hbeyond =>
      by_cases hneg : q < 0
      · rw [decide_eq_true hneg]
        exact infinite_atMost hyNaN
      · have hpos : 0 ≤ q := not_lt.mp hneg
        have hlarge : beyond ≤ |r| := by
          rw [abs_of_nonneg hpos] at hbeyond
          exact hbeyond.trans (hlt.le.trans (le_abs_self r))
        have hrpos : ¬ r < 0 := by linarith
        rw [hy.eq_infinite hlarge, decide_eq_false hneg, decide_eq_false hrpos]
        exact atMost_infinite rfl
  | @finite m e h hbelow hnearest heven =>
      cases hy with
      | infinite hbeyond =>
          by_cases hneg : r < 0
          · have hlarge : beyond ≤ |q| := by
              rw [abs_of_neg hneg] at hbeyond
              rw [abs_of_neg (hlt.trans hneg)]
              linarith
            exact absurd hbelow (not_lt.mpr hlarge)
          · rw [decide_eq_false hneg]
            exact atMost_infinite rfl
      | @finite m' e' h' hbelow' hnearest' heven' =>
          apply atMost_finite h h'
          by_contra hgreater
          rw [not_le] at hgreater
          have hlow := middle_le hgreater (hnearest (.finite _ m' e' h') _ rfl)
          have hhigh := le_middle hgreater (hnearest' (.finite _ m e h) _ rfl)
          linarith

end

/-! ### Texts of integers -/

theorem beyond_le_natAbs {n : Int} (h : Numeral.tooLarge ≤ n.natAbs) : beyond ≤ |(n : ℚ)| := by
  have hpower : (10 : ℚ) ^ (Numeral.maxDigits : Int) = Numeral.tooLarge := by
    rw [zpow_natCast, Numeral.tooLarge, Nat.cast_pow, Nat.cast_ofNat]
  calc beyond ≤ 10 ^ (Numeral.maxDigits : Int) := beyond_le_ten_zpow (by decide)
    _ = (Numeral.tooLarge : ℚ) := hpower
    _ ≤ (n.natAbs : ℚ) := Nat.cast_le.mpr h
    _ = |(n : ℚ)| := by rw [Nat.cast_natAbs, Int.cast_abs]

/-- The loose text of an integer is a literal whose double is the nearest one, with or without a limit. -/
theorem exists_literal_looseInt (n : Int) :
    ∃ l : Literal, l.text = (Value.looseInt n).toList ∧ l.double = ofInt n ∧ skipBlanks l.text = l.text := by
  by_cases hlong : Numeral.tooLarge ≤ n.natAbs
  · have hofInt := (roundsTo_ofInt n).eq_infinite (beyond_le_natAbs hlong)
    rw [Value.looseInt, Numeral.decimal?_eq_none.mpr hlong, Option.getD_none, hofInt]
    by_cases hneg : n < 0
    · rw [if_neg (by omega), decide_eq_true hneg]
      exact ⟨⟨.minus, .infinity⟩, by decide, rfl, by decide⟩
    · have hpos : 0 < n := by
        have hlarge : 0 < Numeral.tooLarge := Nat.pow_pos (by decide)
        omega
      rw [if_pos hpos, decide_eq_false hneg]
      exact ⟨⟨.absent, .infinity⟩, by decide, rfl, by decide⟩
  · have hloose : Value.looseInt n = toString n := Value.looseText_int (not_le.mp hlong)
    obtain ⟨p, htext, -⟩ := exists_positional_toString n
    obtain ⟨l, hl, -⟩ := p.denotes
    rw [htext] at hl
    have hread := l.takeNumber?_text
    rw [hl, takeNumber?_toString] at hread
    refine ⟨l, by rw [hloose, hl], (congrArg Prod.fst (Option.some.inj hread)).symm, ?_⟩
    obtain ⟨c, cs, hcons, hc⟩ := Numeral.toString_eq_cons n
    rw [hl, hcons, skipBlanks, List.dropWhile_cons_of_neg (by simp [hc])]

/-- A text that is a literal is read as a whole. -/
theorem Literal.readFloat_text {l : Literal} (hskip : skipBlanks l.text = l.text) :
    Attempt.readFloat l.text = .ok (some l.double) ∧ Value.readFloat? l.text = some l.double := by
  constructor
  · simp only [Attempt.readFloat, hskip, l.group?_text, l.ofText?_text, Attempt.raising_some, Attempt.map_ok]
  · rw [Value.readFloat?, hskip, l.takeNumber?_text, Option.map_some]

theorem readFloat_looseInt (n : Int) :
    Attempt.readFloat (Value.looseInt n).toList = .ok (some (ofInt n)) ∧
      Attempt.toDouble (.int n) = .ok (some (ofInt n)) := by
  obtain ⟨l, htext, hdouble, hskip⟩ := exists_literal_looseInt n
  have hread := Literal.readFloat_text hskip
  rw [htext, hdouble] at hread
  refine ⟨hread.1, ?_⟩
  rw [Attempt.toDouble_eq rfl]
  exact congrArg Except.ok hread.2

/-- Every integer, of any number of digits, is read as the double nearest to it, an even mantissa going before an odd
one, or as infinity with its sign from half a step beyond the largest double on. The text from which it is read is
made without a fault, and what the pattern of numbers finds in it is the text of a double. An integer with too many
digits for a decimal text is read as infinity, which is what it is rounded to. A smaller integer is never read as a
larger double. -/
theorem integer_rounded :
    (∀ n : Int, ∃ text x, Attempt.looseText (.int n) = .ok text ∧ Attempt.readFloat text.toList = .ok (some x) ∧
      Attempt.toDouble (.int n) = .ok (some x) ∧ (Schema.scalar .float).decode (.int n) = .ok (.float x) ∧
      RoundsTo (decide (n < 0)) n x ∧ (x = infinite (decide (n < 0)) ↔ beyond ≤ |(n : ℚ)|) ∧
      (Numeral.decimal? n = none → x = infinite (decide (n < 0)))) ∧
    ∀ m n : Int, m ≤ n → ∃ x y, Attempt.toDouble (.int m) = .ok (some x) ∧
      Attempt.toDouble (.int n) = .ok (some y) ∧ AtMost x y := by
  have hsign (n : Int) : decide (n < 0) = decide ((n : ℚ) < 0) := decide_eq_decide.mpr Int.cast_lt_zero.symm
  refine ⟨fun n => ?_, fun m n hle => ⟨ofInt m, ofInt n, (readFloat_looseInt m).2, (readFloat_looseInt n).2, ?_⟩⟩
  · obtain ⟨hread, hdouble⟩ := readFloat_looseInt n
    have hrounds := roundsTo_ofInt n
    have hdecode : (Schema.scalar .float).decode (.int n) = .ok (.float (ofInt n)) := by
      rw [Attempt.toDouble_eq rfl] at hdouble
      simp only [Schema.decode, Scalar.read?, Except.ok.inj hdouble, Option.map_some]
    refine ⟨Value.looseInt n, ofInt n, Attempt.looseText_eq _ rfl, hread, hdouble, hdecode, hrounds, ⟨fun h => ?_, ?_⟩,
      fun h => hrounds.eq_infinite (beyond_le_natAbs (Numeral.decimal?_eq_none.mp h))⟩
    · by_contra hsmall
      have hfinite := hrounds.isFinite_iff.mpr (not_le.mp hsmall)
      rw [h] at hfinite
      cases hfinite
    · exact hrounds.eq_infinite
  · rcases hle.eq_or_lt with rfl | hlt
    · exact atMost_self (roundsTo_ofInt m).isNaN
    · have hm := roundsTo_ofInt m
      have hn := roundsTo_ofInt n
      rw [hsign] at hm hn
      exact hm.atMost hn (Int.cast_lt.mpr hlt)

/-- The last integer with a decimal text and the one after it. -/
theorem integer_rounded_limit :
    ∃ x y, Attempt.toDouble (.int (Numeral.tooLarge - 1)) = .ok (some x) ∧
      Attempt.toDouble (.int Numeral.tooLarge) = .ok (some y) ∧ AtMost x y :=
  integer_rounded.2 _ _ (Int.sub_le_self _ Int.one_nonneg)

end Wireform.Double
