import Wireform.Text.Quoted
import Wireform.Proofs.Numeral.Run

/-!
# JSON string literals that are read back

A reader of JSON strings, and that it finds every text again in its literals. The text between the marks is a
run of UTF-16 units, given as characters or as escapes; a character outside the first plane is two units. A
unit that is half of such a character needs the other half.
-/
namespace Wireform.Json

/-! ### Reading -/

def unitsOf (c : Char) : List Nat :=
  if c.toNat < 0x10000 then [c.toNat]
  else [0xd800 + (c.toNat - 0x10000) / 0x400, 0xdc00 + (c.toNat - 0x10000) % 0x400]

/-- The characters of a run of UTF-16 units. -/
def ofUnits? : List Nat → Option (List Char)
  | [] => some []
  | unit :: units =>
    if 0xdc00 ≤ unit ∧ unit < 0xe000 then none
    else if 0xd800 ≤ unit ∧ unit < 0xdc00 then
      match units with
      | [] => none
      | low :: units =>
        if 0xdc00 ≤ low ∧ low < 0xe000 then
          (ofUnits? units).map (Char.ofNat (0x10000 + (unit - 0xd800) * 0x400 + (low - 0xdc00)) :: ·)
        else none
    else (ofUnits? units).map (Char.ofNat unit :: ·)

/-- What a letter after a backslash stands for, where no digits follow. -/
def shortEscapes : List (Char × Char) :=
  [('\x22', '\x22'), ('\\', '\\'), ('/', '/'), ('b', '\x08'), ('f', '\x0c'), ('n', '\n'), ('r', '\r'),
    ('t', '\t')]

def hexUnit? (digits : List Char) : Option Nat :=
  if digits.all (Numeral.isDigitIn 16) then some (Numeral.ofDigitsIn 16 digits) else none

/-- The units of a string up to its closing mark, and what follows the mark. Controls have to be escaped. -/
def units? : List Char → Option (List Nat × List Char)
  | [] => none
  | c :: cs =>
    if c = '\x22' then some ([], cs)
    else if c = '\\' then
      match cs with
      | 'u' :: d₁ :: d₂ :: d₃ :: d₄ :: rest => do
        let unit ← hexUnit? [d₁, d₂, d₃, d₄]
        let (units, rest) ← units? rest
        return (unit :: units, rest)
      | letter :: rest => do
        let escaped ← shortEscapes.lookup letter
        let (units, rest) ← units? rest
        return (unitsOf escaped ++ units, rest)
      | [] => none
    else if c.toNat < 0x20 then none
    else do
      let (units, rest) ← units? cs
      return (unitsOf c ++ units, rest)

/-- The text of a string after its opening mark, and what follows its closing one. -/
def string? (cs : List Char) : Option (String × List Char) := do
  let (units, rest) ← units? cs
  let text ← ofUnits? units
  return (String.ofList text, rest)

/-! ### Units of characters -/

theorem toNat_valid (c : Char) : c.toNat < 0xd800 ∨ 0xe000 ≤ c.toNat ∧ c.toNat < 0x110000 := by
  have h := c.valid
  simp only [UInt32.isValidChar, Nat.isValidChar] at h
  change c.toNat < 0xd800 ∨ 0xdfff < c.toNat ∧ c.toNat < 0x110000 at h
  omega

theorem ofUnits?_append (c : Char) (units : List Nat) :
    ofUnits? (unitsOf c ++ units) = (ofUnits? units).map (c :: ·) := by
  have hvalid := toNat_valid c
  rw [unitsOf]
  split
  · have hplain : ofUnits? (c.toNat :: units) = (ofUnits? units).map (Char.ofNat c.toNat :: ·) := by
      rw [ofUnits?.eq_def]
      exact (if_neg (by omega)).trans (if_neg (by omega))
    rw [List.singleton_append, hplain, Char.ofNat_toNat]
  · have hhigh : ¬ (0xdc00 ≤ 0xd800 + (c.toNat - 0x10000) / 0x400 ∧
        0xd800 + (c.toNat - 0x10000) / 0x400 < 0xe000) := by omega
    have hchar : 0x10000 + (0xd800 + (c.toNat - 0x10000) / 0x400 - 0xd800) * 0x400 +
        (0xdc00 + (c.toNat - 0x10000) % 0x400 - 0xdc00) = c.toNat := by omega
    rw [List.cons_append, List.singleton_append, ofUnits?, if_neg hhigh, if_pos (by omega), if_pos (by omega),
      hchar, Char.ofNat_toNat]

theorem ofUnits?_flatMap (cs : List Char) : ofUnits? (cs.flatMap unitsOf) = some cs := by
  induction cs with
  | nil => rfl
  | cons c cs ih => rw [List.flatMap_cons, ofUnits?_append, ih, Option.map_some]

/-! ### Hexadecimal digits -/

theorem digitChar_spec {d : Nat} (hd : d < 16) :
    Numeral.IsDigitOf 16 d.digitChar ∧ Numeral.digitValue d.digitChar = d ∧ 0x20 ≤ d.digitChar.toNat ∧
      d.digitChar.toNat < 0x7f := by
  have hall : ∀ d < 16, Numeral.IsDigitOf 16 d.digitChar ∧ Numeral.digitValue d.digitChar = d ∧
      0x20 ≤ d.digitChar.toNat ∧ d.digitChar.toNat < 0x7f := by
    decide
  exact hall d hd

theorem mem_hexDigits {n : Nat} {c : Char} (h : c ∈ Nat.toDigits 16 n) : ∃ d < 16, c = d.digitChar := by
  induction n using Nat.strongRecOn with
  | ind n ih =>
      by_cases hn : n < 16
      · rw [Nat.toDigits_of_lt_base hn] at h
        exact ⟨n, hn, List.mem_singleton.mp h⟩
      · have hsplit := Nat.toDigits_append_toDigits (b := 16) (n := n / 16) (d := n % 16) (by decide) (by omega)
          (by omega)
        rw [Nat.div_add_mod, Nat.toDigits_of_lt_base (Nat.mod_lt n (by decide))] at hsplit
        rw [← hsplit, List.mem_append] at h
        rcases h with h | h
        · exact ih (n / 16) (by omega) h
        · exact ⟨n % 16, Nat.mod_lt n (by decide), List.mem_singleton.mp h⟩

theorem byPlace_hexDigits (n : Nat) : Numeral.byPlace 16 (Nat.toDigits 16 n) = n := by
  induction n using Nat.strongRecOn with
  | ind n ih =>
      by_cases hn : n < 16
      · have hdigit := (digitChar_spec hn).2.1
        rw [Nat.toDigits_of_lt_base hn, ← List.nil_append [n.digitChar], Numeral.byPlace_concat, hdigit,
          Numeral.byPlace_nil]
        omega
      · have hsplit := Nat.toDigits_append_toDigits (b := 16) (n := n / 16) (d := n % 16) (by decide) (by omega)
          (by omega)
        rw [Nat.div_add_mod, Nat.toDigits_of_lt_base (Nat.mod_lt n (by decide))] at hsplit
        rw [← hsplit, Numeral.byPlace_concat, ih (n / 16) (by omega),
          (digitChar_spec (Nat.mod_lt n (by decide))).2.1]
        omega

theorem mem_hexPadded {width n : Nat} {c : Char} (h : c ∈ Text.hexPadded width n) :
    ∃ d < 16, c = d.digitChar := by
  rcases List.mem_append.mp h with h | h
  · exact ⟨0, by decide, List.eq_of_mem_replicate h⟩
  · exact mem_hexDigits h

theorem length_hexPadded {width n : Nat} (hwidth : 0 < width) (hn : n < 16 ^ width) :
    (Text.hexPadded width n).length = width := by
  have h := (Nat.length_toDigits_le_iff (b := 16) (by decide) hwidth).mpr hn
  simp only [Text.hexPadded, List.length_append, List.length_replicate]
  omega

/-- Four digits are read as the unit that they were written for. -/
theorem hexUnit?_hexPadded (n : Nat) : hexUnit? (Text.hexPadded 4 n) = some n := by
  have hdigits : ∀ c ∈ Text.hexPadded 4 n, Numeral.IsDigitOf 16 c := by
    intro c hc
    obtain ⟨d, hd, rfl⟩ := mem_hexPadded hc
    exact (digitChar_spec hd).1
  have hzeros (k : Nat) : Numeral.byPlace 16 (List.replicate k '0') = 0 := by
    induction k with
    | zero => rfl
    | succ k ih =>
        rw [List.replicate_succ', Numeral.byPlace_concat, ih]
        rfl
  have hall : (Text.hexPadded 4 n).all (Numeral.isDigitIn 16) = true :=
    List.all_eq_true.mpr fun c hc => (Numeral.isDigitIn_iff c).mpr (hdigits c hc)
  rw [hexUnit?, if_pos hall, Numeral.ofDigitsIn_eq hdigits, Text.hexPadded, Numeral.byPlace_append, hzeros,
    byPlace_hexDigits, Nat.zero_mul, Nat.zero_add]

/-! ### How a character is written -/

/-- The characters from the space to the tilde. -/
def IsVisible (c : Char) : Prop :=
  0x20 ≤ c.toNat ∧ c.toNat < 0x7f

instance (c : Char) : Decidable (IsVisible c) :=
  inferInstanceAs (Decidable (0x20 ≤ c.toNat ∧ c.toNat < 0x7f))

/-- A character between the marks of a literal: a backslash and a letter, or its units in digits, or just the
character. -/
inductive Written (ascii : Bool) (c : Char) : List Char → Prop
  | short {letter : Char} : shortEscapes.lookup letter = some c → IsVisible letter →
      Written ascii c ['\\', letter]
  | units : Written ascii c (Text.unitEscapes c)
  | plain : c ≠ '\x22' → c ≠ '\\' → 0x20 ≤ c.toNat → (ascii = true → c.toNat < 0x7f) → Written ascii c [c]

theorem written_jsonChar (ascii : Bool) (c : Char) : Written ascii c (Text.jsonChar ascii c) := by
  rw [Text.jsonChar]
  split
  · rename_i h
    have hc : c = '\x22' ∨ c = '\\' := by simpa using h
    rcases hc with rfl | rfl <;> exact .short rfl (by decide)
  rename_i hmarks
  have hne : c ≠ '\x22' ∧ c ≠ '\\' := by simpa using hmarks
  have hletter {escaped letter : Char} (h : (c == escaped) = true)
      (hfound : shortEscapes.lookup letter = some escaped) (hvisible : IsVisible letter) :
      Written ascii c ['\\', letter] := .short (beq_iff_eq.mp h ▸ hfound) hvisible
  split
  · exact hletter ‹_› rfl (by decide)
  split
  · exact hletter ‹_› rfl (by decide)
  split
  · exact hletter ‹_› rfl (by decide)
  split
  · exact hletter ‹_› rfl (by decide)
  split
  · exact hletter ‹_› rfl (by decide)
  split
  · rename_i hcontrol
    have hunits : Text.unitEscape c.toNat = Text.unitEscapes c := (if_pos (by omega)).symm
    exact hunits ▸ .units
  rename_i hcontrol
  split
  · exact .units
  · rename_i hascii
    refine .plain hne.1 hne.2 (Nat.not_lt.mp hcontrol) fun htrue => ?_
    simpa [htrue] using hascii

/-! ### Literals -/

/-- A unit that is put before the units of a string. -/
def before (units : List Nat) : Option (List Nat × List Char) → Option (List Nat × List Char) :=
  Option.map fun found => (units ++ found.1, found.2)

theorem units?_unitEscape {n : Nat} (hn : n < 0x10000) (cs : List Char) :
    units? (Text.unitEscape n ++ cs) = before [n] (units? cs) := by
  have hread := hexUnit?_hexPadded n
  have hlength : (Text.hexPadded 4 n).length = 4 := length_hexPadded (by decide) hn
  rw [Text.unitEscape]
  match Text.hexPadded 4 n, hlength, hread with
  | [d₁, d₂, d₃, d₄], _, hread =>
      simp only [List.cons_append, List.nil_append]
      rw [units?, if_neg (by decide), if_pos rfl, hread]
      cases units? cs <;> rfl

theorem units?_shortEscape {letter escaped : Char} (h : shortEscapes.lookup letter = some escaped)
    (cs : List Char) : units? ('\\' :: letter :: cs) = before (unitsOf escaped) (units? cs) := by
  have hletter : letter ≠ 'u' := by
    rintro rfl
    have hnone : shortEscapes.lookup 'u' = none := rfl
    rw [hnone] at h
    cases h
  rw [units?.eq_def]
  refine (if_neg (by decide)).trans ((if_pos rfl).trans ?_)
  split
  · rename_i heq
    exact absurd (List.cons.inj heq).1 hletter
  · rename_i heq
    obtain ⟨rfl, rfl⟩ := List.cons.inj heq
    rw [h]
    cases units? cs <;> rfl
  · rename_i heq
    cases heq

theorem units?_plain {c : Char} (hmark : c ≠ '\x22') (hslash : c ≠ '\\') (hcontrol : ¬ c.toNat < 0x20)
    (cs : List Char) : units? (c :: cs) = before (unitsOf c) (units? cs) := by
  rw [units?.eq_def]
  refine (if_neg hmark).trans ((if_neg hslash).trans ((if_neg hcontrol).trans ?_))
  cases units? cs <;> rfl

theorem before_append (units more : List Nat) (found : Option (List Nat × List Char)) :
    before units (before more found) = before (units ++ more) found := by
  cases found with
  | none => rfl
  | some found => simp [before]

theorem units?_unitEscapes (c : Char) (cs : List Char) :
    units? (Text.unitEscapes c ++ cs) = before (unitsOf c) (units? cs) := by
  have hvalid := toNat_valid c
  rw [Text.unitEscapes, unitsOf]
  split
  · exact units?_unitEscape (by omega) cs
  · rw [List.append_assoc, units?_unitEscape (by omega), units?_unitEscape (by omega), before_append]
    rfl

/-- However a character is written between the marks, its units are read. -/
theorem units?_jsonChar (ascii : Bool) (c : Char) (cs : List Char) :
    units? (Text.jsonChar ascii c ++ cs) = before (unitsOf c) (units? cs) := by
  have hwritten := written_jsonChar ascii c
  generalize Text.jsonChar ascii c = form at hwritten
  cases hwritten with
  | short hletter => exact units?_shortEscape hletter cs
  | units => exact units?_unitEscapes c cs
  | plain hmark hslash hcontrol => exact units?_plain hmark hslash (Nat.not_lt.mpr hcontrol) cs

theorem units?_literal (ascii : Bool) (cs rest : List Char) :
    units? (cs.flatMap (Text.jsonChar ascii) ++ '\x22' :: rest) = some (cs.flatMap unitsOf, rest) := by
  induction cs with
  | nil =>
      rw [List.flatMap_nil, List.nil_append, units?.eq_def]
      exact if_pos rfl
  | cons c cs ih =>
      rw [List.flatMap_cons, List.append_assoc, units?_jsonChar, ih]
      rfl

/-- Every text is read again from its literal, whichever characters are escaped in it. -/
theorem string?_literal (ascii : Bool) (s : String) (rest : List Char) :
    string? (s.toList.flatMap (Text.jsonChar ascii) ++ '\x22' :: rest) = some (s, rest) := by
  rw [string?, units?_literal]
  simp only [Option.bind_eq_bind, Option.bind_some, ofUnits?_flatMap, Option.pure_def, String.ofList_toList]

theorem isVisible_unitEscape {n : Nat} : ∀ c ∈ Text.unitEscape n, IsVisible c := by
  intro c hc
  rw [Text.unitEscape, List.mem_cons, List.mem_cons] at hc
  rcases hc with rfl | rfl | hc
  · decide
  · decide
  · obtain ⟨d, hd, rfl⟩ := mem_hexPadded hc
    exact (digitChar_spec hd).2.2

/-- No escape and no character that is left as it is goes beyond ASCII, and none is a control. -/
theorem isVisible_jsonChar (c : Char) : ∀ d ∈ Text.jsonChar true c, IsVisible d := by
  have hwritten := written_jsonChar true c
  generalize Text.jsonChar true c = form at hwritten
  intro d hd
  cases hwritten with
  | short _ hletter =>
      rw [List.mem_cons, List.mem_singleton] at hd
      rcases hd with rfl | rfl
      · decide
      · exact hletter
  | units =>
      rw [Text.unitEscapes] at hd
      split at hd
      · exact isVisible_unitEscape d hd
      · exact (List.mem_append.mp hd).elim (isVisible_unitEscape d) (isVisible_unitEscape d)
  | plain _ _ hcontrol hascii =>
      obtain rfl := List.mem_singleton.mp hd
      exact ⟨hcontrol, hascii rfl⟩

end Wireform.Json
