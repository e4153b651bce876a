import Wireform.Double.Decimal
import Wireform.Value.Basic
import Wireform.Proofs.Json.Text
import Mathlib.Data.List.Forall2

/-!
# A reader of JSON

The grammar of JSON as a reader of whole texts, with the three words for floats that are no numbers. What the
reader finds in a text made of parts follows from what it finds in the parts.
-/
namespace Wireform.Json

/-! ### Reading -/

def isSpace (c : Char) : Bool :=
  c == ' ' || c == '\t' || c == '\n' || c == '\r'

/-- The characters of words and numbers. -/
def isWordChar (c : Char) : Bool :=
  c.isAlphanum || c == '-' || c == '+' || c == '.'

/-- How a number begins: with a digit, without a zero before other digits, and with a digit after a point. -/
def isStrict (cs : List Char) : Bool :=
  let (whole, rest) := Double.takeDigits cs
  !whole.isEmpty && (whole.head? != some '0' || whole.length == 1) &&
    match rest with
    | '.' :: rest => rest.head?.any Char.isDigit
    | _ => true

/-- A number without a sign: an integer, unless it has a fraction or a power of ten. An integer has no more
digits than a decimal text may have. -/
def unsigned? (negative : Bool) (cs : List Char) : Option Value :=
  if !isStrict cs then none
  else if cs.all Char.isDigit then
    if cs.length ≤ Numeral.maxDigits then some (.int (Numeral.signed negative (Numeral.ofDigits cs))) else none
  else
    match Double.takeUnsigned? negative cs with
    | some (x, []) => some (.float x)
    | _ => none

def number? : List Char → Option Value
  | '-' :: cs => unsigned? true cs
  | cs => unsigned? false cs

def words : List (List Char × Value) :=
  [("null".toList, .null), ("true".toList, .bool true), ("false".toList, .bool false),
    ("NaN".toList, .float .nan), ("Infinity".toList, .float (.infinite false)),
    ("-Infinity".toList, .float (.infinite true))]

/-- What a run of characters without blanks and marks stands for. -/
def word? (cs : List Char) : Option Value :=
  (words.lookup cs).or (number? cs)

mutual

/-- The value at the start of a text, blanks before it skipped, and what follows it. Every value inside
another one starts later in the text, so the number of characters is a bound on the depth. -/
def value? : Nat → List Char → Option (Value × List Char)
  | 0, _ => none
  | bound + 1, cs =>
    match cs.dropWhile isSpace with
    | [] => none
    | c :: rest =>
      if c = '\x22' then (string? rest).map fun found => (.str found.1, found.2)
      else if c = '[' then
        match rest.dropWhile isSpace with
        | ']' :: rest => some (.list [], rest)
        | _ => (items? bound rest).map fun found => (.list found.1, found.2)
      else if c = '\x7b' then
        match rest.dropWhile isSpace with
        | '\x7d' :: rest => some (.map [], rest)
        | _ => (members? bound rest).map fun found => (.ofPairs found.1, found.2)
      else (word? ((c :: rest).takeWhile isWordChar)).map fun v => (v, (c :: rest).dropWhile isWordChar)

/-- Values with commas between them, at least one, up to the closing bracket. -/
def items? : Nat → List Char → Option (List Value × List Char)
  | 0, _ => none
  | bound + 1, cs => do
    let (item, rest) ← value? bound cs
    match rest.dropWhile isSpace with
    | ']' :: rest => return ([item], rest)
    | ',' :: rest => do
      let (items, rest) ← items? bound rest
      return (item :: items, rest)
    | _ => none

/-- Names with values and commas between them, at least one, up to the closing brace. -/
def members? : Nat → List Char → Option (List (Value × Value) × List Char)
  | 0, _ => none
  | bound + 1, cs =>
    match cs.dropWhile isSpace with
    | '\x22' :: rest => do
      let (name, rest) ← string? rest
      match rest.dropWhile isSpace with
      | ':' :: rest => do
        let (value, rest) ← value? bound rest
        match rest.dropWhile isSpace with
        | '\x7d' :: rest => return ([(.str name, value)], rest)
        | ',' :: rest => do
          let (members, rest) ← members? bound rest
          return ((.str name, value) :: members, rest)
        | _ => none
      | _ => none
    | _ => none

end

/-- The value of a whole text. -/
def read? (s : String) : Option Value :=
  match value? (s.length + 1) s.toList with
  | some (v, rest) => if rest.all isSpace then some v else none
  | none => none

/-! ### Texts that are read -/

/-- What follows does not go on with a word. -/
def Stops (rest : List Char) : Prop :=
  ∀ c ∈ rest.head?, isWordChar c = false

theorem stops_cons {c : Char} (h : isWordChar c = false) (rest : List Char) : Stops (c :: rest) := by
  intro d hd
  exact Option.some.inj hd ▸ h

/-- The text is read as the value, whatever comes after it. -/
def IsReadAs (cs : List Char) (v : Value) : Prop :=
  ∀ bound rest, cs.length ≤ bound → Stops rest → value? bound (cs ++ rest) = some (v, rest)

def literal (ascii : Bool) (s : String) : List Char :=
  '\x22' :: (s.toList.flatMap (Text.jsonChar ascii) ++ ['\x22'])

theorem literal_append (ascii : Bool) (s : String) (rest : List Char) :
    literal ascii s ++ rest = '\x22' :: (s.toList.flatMap (Text.jsonChar ascii) ++ '\x22' :: rest) := by
  simp [literal]

theorem isReadAs_literal (ascii : Bool) (s : String) : IsReadAs (literal ascii s) (.str s) := by
  intro bound rest hbound _
  match bound, hbound with
  | bound + 1, _ =>
      rw [literal_append, value?, List.dropWhile_cons_of_neg (by decide)]
      simp only [if_true, string?_literal, Option.map_some]

theorem isReadAs_word {c : Char} {cs : List Char} {v : Value} (hchars : ∀ d ∈ c :: cs, isWordChar d = true)
    (hword : word? (c :: cs) = some v) : IsReadAs (c :: cs) v := by
  intro bound rest hbound hstops
  have hc : isWordChar c = true := hchars c List.mem_cons_self
  have hne {d : Char} (hd : isWordChar d = false) : c ≠ d := by
    rintro rfl
    rw [hc] at hd
    cases hd
  have hspace : ¬ isSpace c = true := by
    simp only [isSpace, Bool.or_eq_true, beq_iff_eq, not_or]
    exact ⟨⟨⟨hne rfl, hne rfl⟩, hne rfl⟩, hne rfl⟩
  match bound, hbound with
  | bound + 1, _ =>
      rw [List.cons_append, value?, List.dropWhile_cons_of_neg hspace]
      simp only [if_neg (hne (d := '\x22') rfl), if_neg (hne (d := '[') rfl), if_neg (hne (d := '\x7b') rfl)]
      rw [← List.cons_append, Numeral.takeWhile_run hchars hstops, Numeral.dropWhile_run hchars hstops, hword,
        Option.map_some]

/-- No value begins with a character that is neither of a word nor one of three marks. -/
theorem value?_eq_none {c : Char} {cs rest : List Char} (h : cs.dropWhile isSpace = c :: rest)
    (hmarks : c ∉ ['\x22', '[', '\x7b']) (hword : isWordChar c = false) (bound : Nat) : value? bound cs = none := by
  simp only [List.mem_cons, List.not_mem_nil, or_false, not_or] at hmarks
  cases bound with
  | zero => rfl
  | succ bound =>
      rw [value?, h]
      refine (if_neg hmarks.1).trans ((if_neg hmarks.2.1).trans ((if_neg hmarks.2.2).trans ?_))
      rw [List.takeWhile_cons_of_neg (Bool.eq_false_iff.mp hword)]
      rfl

theorem value?_space (bound : Nat) (cs : List Char) : value? bound (' ' :: cs) = value? bound cs := by
  cases bound with
  | zero => rfl
  | succ bound => rw [value?, value?, List.dropWhile_cons_of_pos (by decide)]

theorem items?_space (bound : Nat) (cs : List Char) : items? bound (' ' :: cs) = items? bound cs := by
  cases bound with
  | zero => rfl
  | succ bound => rw [items?, items?, value?_space]

theorem members?_space (bound : Nat) (cs : List Char) : members? bound (' ' :: cs) = members? bound cs := by
  cases bound with
  | zero => rfl
  | succ bound => rw [members?, members?, List.dropWhile_cons_of_pos (by decide)]

def separator : List Char := [',', ' ']

theorem length_separated (part next : List Char) (parts : List (List Char)) :
    (separator.intercalate (part :: next :: parts)).length =
      part.length + 2 + (separator.intercalate (next :: parts)).length := by
  rw [List.intercalate_cons_cons, List.length_append, List.length_append]
  rfl

theorem separated_append (part next : List Char) (parts : List (List Char)) (rest : List Char) :
    separator.intercalate (part :: next :: parts) ++ rest =
      part ++ ',' :: ' ' :: (separator.intercalate (next :: parts) ++ rest) := by
  rw [List.intercalate_cons_cons, List.append_assoc, List.append_assoc]
  rfl

theorem items?_read {part : List Char} {parts : List (List Char)} {v : Value} {vs : List Value}
    (hpart : IsReadAs part v) (hparts : List.Forall₂ IsReadAs parts vs) (bound : Nat) (rest : List Char)
    (hbound : (separator.intercalate (part :: parts)).length < bound) :
    items? bound (separator.intercalate (part :: parts) ++ ']' :: rest) = some (v :: vs, rest) := by
  induction hparts generalizing part v bound with
  | nil =>
      match bound, hbound with
      | bound + 1, hbound =>
          rw [List.intercalate_singleton] at hbound ⊢
          rw [items?, hpart bound _ (by omega) (stops_cons (by decide) rest)]
          rfl
  | @cons next v' parts vs hnext hparts ih =>
      match bound, hbound with
      | bound + 1, hbound =>
          rw [length_separated] at hbound
          have hread := ih hnext bound (by omega)
          rw [separated_append, items?, hpart bound _ (by omega) (stops_cons (c := ',') (by decide) _)]
          change (items? bound (' ' :: (separator.intercalate (next :: parts) ++ ']' :: rest)) >>= _) = _
          rw [items?_space, hread]
          rfl

theorem value?_list {cs : List Char} (h : (cs.dropWhile isSpace).head? ≠ some ']') (bound : Nat) :
    value? (bound + 1) ('[' :: cs) = (items? bound cs).map fun found => (.list found.1, found.2) := by
  rw [value?, List.dropWhile_cons_of_neg (by decide)]
  refine (if_neg (by decide)).trans ((if_pos rfl).trans ?_)
  split
  · rename_i heq
    exact absurd (congrArg List.head? heq) h
  · rfl

theorem value?_map {cs : List Char} (h : (cs.dropWhile isSpace).head? ≠ some '\x7d') (bound : Nat) :
    value? (bound + 1) ('\x7b' :: cs) = (members? bound cs).map fun found => (.ofPairs found.1, found.2) := by
  rw [value?, List.dropWhile_cons_of_neg (by decide)]
  refine (if_neg (by decide)).trans ((if_neg (by decide)).trans ((if_pos rfl).trans ?_))
  split
  · rename_i heq
    exact absurd (congrArg List.head? heq) h
  · rfl

/-- A text that is read does not begin with a closing bracket. -/
theorem IsReadAs.head?_ne {cs : List Char} {v : Value} (h : IsReadAs cs v) {rest : List Char}
    (hrest : Stops rest) : ((cs ++ rest).dropWhile isSpace).head? ≠ some ']' := by
  intro hhead
  obtain ⟨more, hmore⟩ := List.head?_eq_some_iff.mp hhead
  have hread := h cs.length rest (Nat.le_refl _) hrest
  rw [value?_eq_none hmore (by decide) rfl] at hread
  cases hread

/-- Brackets around texts that are read are a list. -/
theorem isReadAs_list {parts : List (List Char)} {vs : List Value} (h : List.Forall₂ IsReadAs parts vs) :
    IsReadAs ('[' :: (separator.intercalate parts ++ [']'])) (.list vs) := by
  intro bound rest hbound _
  match bound, hbound with
  | bound + 1, hbound =>
      rw [List.cons_append, List.append_assoc, List.singleton_append]
      simp only [List.length_cons, List.length_append, List.length_nil] at hbound
      cases h with
      | nil => rfl
      | @cons part v parts vs hpart hparts =>
          have hopen : ((separator.intercalate (part :: parts) ++ ']' :: rest).dropWhile isSpace).head? ≠
              some ']' := by
            cases parts with
            | nil =>
                rw [List.intercalate_singleton]
                exact hpart.head?_ne (stops_cons (c := ']') (by decide) rest)
            | cons next parts =>
                rw [separated_append]
                exact hpart.head?_ne (stops_cons (c := ',') (by decide) _)
          rw [value?_list hopen, items?_read hpart hparts bound rest (by omega), Option.map_some]

/-- A name and a value. -/
def member (ascii : Bool) (name : String) (part : List Char) : List Char :=
  literal ascii name ++ ':' :: ' ' :: part

theorem member_append (ascii : Bool) (name : String) (part rest : List Char) :
    member ascii name part ++ rest =
      '\x22' :: (name.toList.flatMap (Text.jsonChar ascii) ++ '\x22' :: ':' :: ' ' :: (part ++ rest)) := by
  rw [member, List.append_assoc, literal_append]
  rfl

/-- A last member, or one with others after it. -/
theorem members?_member (ascii : Bool) (name : String) {part : List Char} {v : Value} (hpart : IsReadAs part v)
    {bound : Nat} (hbound : part.length ≤ bound) (rest : List Char) :
    members? (bound + 1) (member ascii name part ++ '\x7d' :: rest) = some ([(.str name, v)], rest) ∧
      members? (bound + 1) (member ascii name part ++ ',' :: rest) =
        (members? bound rest).map fun found => ((.str name, v) :: found.1, found.2) := by
  constructor
  · rw [member_append, members?, List.dropWhile_cons_of_neg (by decide)]
    simp only [string?_literal, Option.bind_eq_bind, Option.bind_some]
    rw [List.dropWhile_cons_of_neg (by decide)]
    simp only [value?_space, hpart bound _ hbound (stops_cons (c := '\x7d') (by decide) rest), Option.bind_some]
    rw [List.dropWhile_cons_of_neg (by decide)]
    rfl
  · rw [member_append, members?, List.dropWhile_cons_of_neg (by decide)]
    simp only [string?_literal, Option.bind_eq_bind, Option.bind_some]
    rw [List.dropWhile_cons_of_neg (by decide)]
    simp only [value?_space, hpart bound _ hbound (stops_cons (c := ',') (by decide) rest), Option.bind_some]
    rw [List.dropWhile_cons_of_neg (by decide)]
    change (members? bound rest >>= fun found => some ((.str name, v) :: found.1, found.2)) = _
    cases members? bound rest <;> rfl

/-- An entry has the name of a member, and its value is read from the text. -/
def IsMember (m : String × List Char) (e : Value × Value) : Prop :=
  e.1 = .str m.1 ∧ IsReadAs m.2 e.2

def membersText (ascii : Bool) (ms : List (String × List Char)) : List Char :=
  separator.intercalate (ms.map fun m => member ascii m.1 m.2)

theorem members?_read {ascii : Bool} {m : String × List Char} {ms : List (String × List Char)}
    {e : Value × Value} {es : List (Value × Value)} (hm : IsMember m e) (hms : List.Forall₂ IsMember ms es)
    (bound : Nat) (rest : List Char) (hbound : (membersText ascii (m :: ms)).length < bound) :
    members? bound (membersText ascii (m :: ms) ++ '\x7d' :: rest) = some (e :: es, rest) := by
  induction hms generalizing m e bound with
  | nil =>
      obtain ⟨name, part⟩ := m
      obtain ⟨_, v⟩ := e
      obtain ⟨rfl, hpart⟩ := hm
      have hread : IsReadAs part v := hpart
      match bound, hbound with
      | bound + 1, hbound =>
          rw [membersText, List.map_singleton, List.intercalate_singleton] at hbound ⊢
          simp only [member, List.length_append, List.length_cons] at hbound
          exact (members?_member ascii name hread (by omega) rest).1
  | @cons next e' ms es hnext hms ih =>
      obtain ⟨name, part⟩ := m
      obtain ⟨_, v⟩ := e
      obtain ⟨rfl, hpart⟩ := hm
      have hread : IsReadAs part v := hpart
      match bound, hbound with
      | bound + 1, hbound =>
          rw [membersText, List.map_cons, List.map_cons, length_separated, member] at hbound
          simp only [List.length_append, List.length_cons] at hbound
          have hmore := ih hnext bound (by
            rw [membersText, List.map_cons]
            omega)
          rw [membersText, List.map_cons] at hmore
          rw [membersText, List.map_cons, List.map_cons, separated_append]
          refine (members?_member ascii name hread (by omega) _).2.trans ?_
          rw [members?_space, hmore, Option.map_some]

/-- Braces around members with texts that are read are a map. -/
theorem isReadAs_map (ascii : Bool) {ms : List (String × List Char)} {es : List (Value × Value)}
    (h : List.Forall₂ IsMember ms es) :
    IsReadAs ('\x7b' :: (membersText ascii ms ++ ['\x7d'])) (.ofPairs es) := by
  intro bound rest hbound _
  match bound, hbound with
  | bound + 1, hbound =>
      rw [List.cons_append, List.append_assoc, List.singleton_append]
      simp only [List.length_cons, List.length_append, List.length_nil] at hbound
      cases h with
      | nil => rfl
      | @cons m e ms es hm hms =>
          have hopen : ((membersText ascii (m :: ms) ++ '\x7d' :: rest).dropWhile isSpace).head? ≠
              some '\x7d' := by
            have hmark : ∃ more, membersText ascii (m :: ms) ++ '\x7d' :: rest = '\x22' :: more := by
              rw [membersText]
              cases ms with
              | nil =>
                  rw [List.map_singleton, List.intercalate_singleton]
                  exact ⟨_, member_append ascii m.1 m.2 _⟩
              | cons next ms =>
                  rw [List.map_cons, List.map_cons, separated_append]
                  exact ⟨_, member_append ascii m.1 m.2 _⟩
            obtain ⟨more, hmore⟩ := hmark
            rw [hmore]
            exact nofun
          rw [value?_map hopen, members?_read hm hms bound rest (by omega), Option.map_some]

/-- A text is read as a whole. -/
theorem IsReadAs.whole {s : String} {v : Value} (h : IsReadAs s.toList v) : read? s = some v := by
  have hread := h (s.length + 1) [] (by rw [String.length_toList]; omega) nofun
  rw [List.append_nil] at hread
  rw [read?, hread]
  rfl

/-- A list of texts in ASCII is read as the list of these texts. -/
theorem read?_asciiJsonList (items : List String) :
    read? (Text.asciiJsonList items) = some (.list (items.map .str)) := by
  have hparts : List.Forall₂ IsReadAs (items.map (literal true)) (items.map .str) := by
    rw [List.forall₂_map_left_iff, List.forall₂_map_right_iff]
    exact List.forall₂_same.mpr fun s _ => isReadAs_literal true s
  have htext : (Text.asciiJsonList items).toList =
      '[' :: (separator.intercalate (items.map (literal true)) ++ [']']) := by
    have hitems : String.toList ∘ Text.asciiJsonString = literal true := by
      funext s
      exact String.toList_ofList
    rw [Text.asciiJsonList, String.toList_append, String.toList_append, String.toList_intercalate,
      List.map_map, hitems]
    rfl
  apply IsReadAs.whole
  rw [htext]
  exact isReadAs_list hparts

/-! ### Characters of members in ASCII -/

theorem isVisible_literal (s : String) : ∀ c ∈ literal true s, IsVisible c := by
  intro c hc
  rw [literal, List.mem_cons, List.mem_append, List.mem_flatMap, List.mem_singleton] at hc
  rcases hc with rfl | ⟨d, -, hc⟩ | rfl
  · decide
  · exact isVisible_jsonChar d c hc
  · decide

theorem isVisible_member (name : String) {part : List Char} (h : ∀ c ∈ part, IsVisible c) :
    ∀ c ∈ member true name part, IsVisible c := by
  intro c hc
  rw [member, List.mem_append, List.mem_cons, List.mem_cons] at hc
  rcases hc with hc | rfl | rfl | hc
  · exact isVisible_literal name c hc
  · decide
  · decide
  · exact h c hc

theorem isVisible_of_mem_separator : ∀ c ∈ separator, IsVisible c :=
  List.forall_mem_cons.mpr ⟨by decide, List.forall_mem_singleton.mpr (by decide)⟩

theorem isVisible_separated {parts : List (List Char)} (h : ∀ part ∈ parts, ∀ c ∈ part, IsVisible c) :
    ∀ c ∈ separator.intercalate parts, IsVisible c := by
  induction parts with
  | nil => exact List.forall_mem_nil _
  | cons part parts ih =>
      rw [List.forall_mem_cons] at h
      cases parts with
      | nil =>
          rw [List.intercalate_singleton]
          exact h.1
      | cons next parts =>
          intro c hc
          rw [List.intercalate_cons_cons, List.mem_append, List.mem_append] at hc
          rcases hc with (hc | hc) | hc
          · exact h.1 c hc
          · exact isVisible_of_mem_separator c hc
          · exact ih h.2 c hc

end Wireform.Json
