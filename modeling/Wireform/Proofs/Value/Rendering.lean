import Wireform.Proofs.Attempt
import Wireform.Proofs.Json.Number
import Wireform.Proofs.ValueText

/-!
# Values in error messages

Which of its texts a value has in an error message. What matters is only whether there is, anywhere in the value,
an integer that is too long or a key that JSON has no name for, and not where the renderers meet it. A JSON text
is read again as the value in the terms of JSON: tuples are lists, times are texts, and so are keys.
-/
namespace Wireform.Value

/-! ### Values without a JSON text -/

/-- The keys that JSON has a name for. -/
def isJsonKey : Value → Bool
  | null | bool _ | int _ | float _ | str _ => true
  | _ => false

/-- Some map inside has a key that JSON has no name for. Maps inside keys do not count. -/
inductive HasOddKey : Value → Prop
  | list {items : List Value} {v : Value} : v ∈ items → HasOddKey v → HasOddKey (.list items)
  | tuple {items : List Value} {v : Value} : v ∈ items → HasOddKey v → HasOddKey (.tuple items)
  | value {entries : List (Value × Value)} {e : Value × Value} : e ∈ entries → HasOddKey e.2 →
      HasOddKey (.map entries)
  | key {entries : List (Value × Value)} {e : Value × Value} : e ∈ entries → e.1.isJsonKey = false →
      HasOddKey (.map entries)

section

variable {items : List Value} {entries : List (Value × Value)}

theorem holdsLong_list : (list items).HoldsLong ↔ ∃ v ∈ items, v.HoldsLong := by
  constructor
  · intro h
    cases h with
    | list hv h => exact ⟨_, hv, h⟩
  · rintro ⟨v, hv, h⟩
    exact .list hv h

theorem holdsLong_tuple : (tuple items).HoldsLong ↔ ∃ v ∈ items, v.HoldsLong := by
  constructor
  · intro h
    cases h with
    | tuple hv h => exact ⟨_, hv, h⟩
  · rintro ⟨v, hv, h⟩
    exact .tuple hv h

theorem holdsLong_map : (map entries).HoldsLong ↔ ∃ e ∈ entries, e.1.HoldsLong ∨ e.2.HoldsLong := by
  constructor
  · intro h
    cases h with
    | key he h => exact ⟨_, he, .inl h⟩
    | value he h => exact ⟨_, he, .inr h⟩
  · rintro ⟨e, he, h | h⟩
    · exact .key he h
    · exact .value he h

theorem hasOddKey_list : (list items).HasOddKey ↔ ∃ v ∈ items, v.HasOddKey := by
  constructor
  · intro h
    cases h with
    | list hv h => exact ⟨_, hv, h⟩
  · rintro ⟨v, hv, h⟩
    exact .list hv h

theorem hasOddKey_tuple : (tuple items).HasOddKey ↔ ∃ v ∈ items, v.HasOddKey := by
  constructor
  · intro h
    cases h with
    | tuple hv h => exact ⟨_, hv, h⟩
  · rintro ⟨v, hv, h⟩
    exact .tuple hv h

theorem hasOddKey_map :
    (map entries).HasOddKey ↔ ∃ e ∈ entries, e.1.isJsonKey = false ∨ e.2.HasOddKey := by
  constructor
  · intro h
    cases h with
    | key he h => exact ⟨_, he, .inl h⟩
    | value he h => exact ⟨_, he, .inr h⟩
  · rintro ⟨e, he, h | h⟩
    · exact .key he h
    · exact .value he h

end

theorem jsonKey?_eq_none {key : Value} : key.jsonKey? = none ↔ key.HoldsLong ∨ key.isJsonKey = false := by
  cases key with
  | int n =>
      rw [jsonKey?, Numeral.decimal?_eq_none]
      exact ⟨fun h => .inl (.int h), fun | .inl (.int h) => h⟩
  | null | bool b | float x | str s => exact ⟨nofun, by rintro (h | h) <;> cases h⟩
  | _ => exact ⟨fun _ => .inr rfl, fun _ => rfl⟩

mutual

theorem json?_eq_none (v : Value) : v.json? = none ↔ v.HoldsLong ∨ v.HasOddKey := by
  match v with
  | .int n =>
      rw [json?, Numeral.decimal?_eq_none]
      exact ⟨fun h => .inl (.int h), fun | .inl (.int h) => h⟩
  | .list items =>
      rw [json?, Option.map_eq_none_iff, jsonItems?_eq_none, holdsLong_list, hasOddKey_list]
      simp only [and_or_left, exists_or]
  | .tuple items =>
      rw [json?, Option.map_eq_none_iff, jsonItems?_eq_none, holdsLong_tuple, hasOddKey_tuple]
      simp only [and_or_left, exists_or]
  | .map entries =>
      rw [json?, Option.map_eq_none_iff, jsonEntries?_eq_none, holdsLong_map, hasOddKey_map]
      simp only [and_or_left, exists_or, or_assoc, or_left_comm]
  | .set items | .record attributes =>
      exact (Option.map_eq_none_iff.trans text?_eq_none).trans ⟨.inl, fun | .inl h => h⟩
  | .null | .bool _ | .float _ | .str _ | .datetime _ | .day _ | .bytes _ =>
      exact ⟨nofun, by rintro (h | h) <;> cases h⟩

theorem jsonItems?_eq_none (items : List Value) :
    jsonItems? items = none ↔ ∃ v ∈ items, v.HoldsLong ∨ v.HasOddKey := by
  match items with
  | [] => simp [jsonItems?]
  | item :: items =>
      rw [jsonItems?, List.exists_mem_cons_iff, ← json?_eq_none item, ← jsonItems?_eq_none items]
      cases item.json? <;> cases jsonItems? items <;> simp

theorem jsonEntries?_eq_none (entries : List (Value × Value)) :
    jsonEntries? entries = none ↔
      ∃ e ∈ entries, (e.1.HoldsLong ∨ e.1.isJsonKey = false) ∨ e.2.HoldsLong ∨ e.2.HasOddKey := by
  match entries with
  | [] => simp [jsonEntries?]
  | (key, value) :: entries =>
      rw [jsonEntries?, List.exists_mem_cons_iff, ← json?_eq_none value, ← jsonEntries?_eq_none entries,
        ← jsonKey?_eq_none]
      cases key.jsonKey? <;> cases value.json? <;> cases jsonEntries? entries <;> simp

end

/-! ### What a JSON text is read as -/

/-- The text that a key is in JSON. -/
def keyName : Value → String
  | null => "null"
  | bool b => if b then "true" else "false"
  | int n => toString n
  | float x => x.json
  | str s => s
  | _ => ""

mutual

/-- A value in the terms of JSON. -/
def inJson : Value → Value
  | null => .null
  | bool b => .bool b
  | int n => .int n
  | float x => .float x
  | str s => .str s
  | datetime t => .str t.text
  | list items | tuple items => .list (itemsInJson items)
  | map entries => .ofPairs (entriesInJson entries)
  | v => .str (v.text?.getD "")

def itemsInJson : List Value → List Value
  | [] => []
  | item :: items => inJson item :: itemsInJson items

def entriesInJson : List (Value × Value) → List (Value × Value)
  | [] => []
  | (key, value) :: entries => (.str (keyName key), inJson value) :: entriesInJson entries

end

theorem jsonKey?_eq_keyName {key : Value} {name : String} (h : key.jsonKey? = some name) : name = key.keyName := by
  cases key with
  | int n =>
      rw [jsonKey?, Numeral.decimal?] at h
      split at h
      · exact (Option.some.inj h).symm
      · cases h
  | null | bool b | float x | str s => exact (Option.some.inj h).symm
  | _ => cases h

theorem isReadAs_jsonString (s : String) : Json.IsReadAs (Text.jsonString s).toList (.str s) := by
  have htext : (Text.jsonString s).toList = Json.literal false s := String.toList_ofList
  rw [htext]
  exact Json.isReadAs_literal false s

theorem toList_bracketed {a b : String} {first last : Char} (ha : a.toList = [first]) (hb : b.toList = [last])
    (parts : List String) :
    (bracketed a b parts).toList =
      first :: (Json.separator.intercalate (parts.map String.toList) ++ [last]) := by
  have hseparator : ", ".toList = Json.separator := rfl
  rw [bracketed, String.toList_append, String.toList_append, String.toList_intercalate, ha, hb,
    hseparator, List.singleton_append, List.cons_append]

mutual

/-- A JSON text is read as the value that it was made of. -/
theorem isReadAs_json (v : Value) : ∀ {text : String}, v.json? = some text → Json.IsReadAs text.toList v.inJson := by
  match v with
  | .null =>
      intro _ h
      obtain rfl := Option.some.inj h
      exact Json.isReadAs_word (List.all_eq_true.mp rfl) rfl
  | .bool b =>
      intro _ h
      obtain rfl := Option.some.inj h
      cases b <;> exact Json.isReadAs_word (List.all_eq_true.mp rfl) rfl
  | .int n =>
      intro _ h
      rw [json?] at h
      exact Json.isReadAs_decimal h
  | .float x =>
      intro _ h
      obtain rfl := Option.some.inj h
      exact Json.isReadAs_double x
  | .list items | .tuple items =>
      intro _ h
      obtain ⟨parts, hparts, rfl⟩ := Option.map_eq_some_iff.mp h
      have hlist := Json.isReadAs_list (isReadAs_jsonItems items hparts)
      have hopen : "[".toList = ['['] := rfl
      have hclose : "]".toList = [']'] := rfl
      rw [← toList_bracketed hopen hclose] at hlist
      exact hlist
  | .map entries =>
      intro _ h
      obtain ⟨parts, hparts, rfl⟩ := Option.map_eq_some_iff.mp h
      obtain ⟨ms, hms, hread⟩ := isReadAs_jsonEntries entries hparts
      have hmap := Json.isReadAs_map false hread
      have hopen : "\x7b".toList = ['\x7b'] := rfl
      have hclose : "\x7d".toList = ['\x7d'] := rfl
      rw [Json.membersText, ← hms, ← toList_bracketed hopen hclose] at hmap
      exact hmap
  | .str _ | .datetime _ | .day _ | .bytes _ =>
      intro _ h
      obtain rfl := Option.some.inj h
      exact isReadAs_jsonString _
  | .set items =>
      intro _ h
      obtain ⟨plain, hplain, rfl⟩ := Option.map_eq_some_iff.mp h
      have hform : (Value.set items).inJson = .str ((Value.set items).text?.getD "") := rfl
      rw [hform, hplain]
      exact isReadAs_jsonString plain
  | .record attributes =>
      intro _ h
      obtain ⟨plain, hplain, rfl⟩ := Option.map_eq_some_iff.mp h
      have hform : (Value.record attributes).inJson = .str ((Value.record attributes).text?.getD "") := rfl
      rw [hform, hplain]
      exact isReadAs_jsonString plain

theorem isReadAs_jsonItems (items : List Value) {parts : List String} (h : jsonItems? items = some parts) :
    List.Forall₂ Json.IsReadAs (parts.map String.toList) (itemsInJson items) := by
  match items with
  | [] =>
      obtain rfl := Option.some.inj h
      exact .nil
  | item :: items =>
      obtain ⟨part, hpart, hrest⟩ := Option.bind_eq_some_iff.mp h
      obtain ⟨parts, hparts, heq⟩ := Option.bind_eq_some_iff.mp hrest
      obtain rfl := Option.some.inj heq
      exact .cons (isReadAs_json item hpart) (isReadAs_jsonItems items hparts)

theorem isReadAs_jsonEntries (entries : List (Value × Value)) {parts : List String}
    (h : jsonEntries? entries = some parts) :
    ∃ ms : List (String × List Char), parts.map String.toList = ms.map (fun m => Json.member false m.1 m.2) ∧
      List.Forall₂ Json.IsMember ms (entriesInJson entries) := by
  match entries with
  | [] =>
      obtain rfl := Option.some.inj h
      exact ⟨[], rfl, .nil⟩
  | (key, value) :: entries =>
      obtain ⟨name, hname, hrest⟩ := Option.bind_eq_some_iff.mp h
      obtain ⟨part, hpart, hrest⟩ := Option.bind_eq_some_iff.mp hrest
      obtain ⟨parts, hparts, heq⟩ := Option.bind_eq_some_iff.mp hrest
      obtain rfl := Option.some.inj heq
      obtain rfl := jsonKey?_eq_keyName hname
      obtain ⟨ms, hms, hread⟩ := isReadAs_jsonEntries entries hparts
      refine ⟨(key.keyName, part.toList) :: ms, ?_, .cons ⟨rfl, isReadAs_json value hpart⟩ hread⟩
      rw [List.map_cons, List.map_cons, hms]
      simp [Json.member, Json.literal, Text.jsonString]

end

/-! ### The text that is chosen -/

theorem toList_tooLargeText (v : Value) :
    v.tooLargeText.toList = '<' :: (v.typeName.toList ++ " too large to render>".toList) := by
  rw [tooLargeText, String.toList_append, String.toList_append]
  rfl

/-- The text that stands for a value that is too large is no JSON text. -/
theorem read?_tooLargeText (v : Value) : Json.read? v.tooLargeText = none := by
  have hskip : v.tooLargeText.toList.dropWhile Json.isSpace = v.tooLargeText.toList := by
    rw [toList_tooLargeText, List.dropWhile_cons_of_neg (by decide)]
  rw [Json.read?, Json.value?_eq_none (hskip.trans v.toList_tooLargeText) (by decide) rfl]

/-- What is written between brackets or braces does not stand for a value that is too large. -/
theorem bracketed_ne_tooLargeText {a b : String} (first last : Char) (ha : a.toList = [first])
    (hb : b.toList = [last]) (hfirst : first ≠ '<') (parts : List String) (v : Value) :
    bracketed a b parts ≠ v.tooLargeText := by
  intro h
  have hlist := congrArg String.toList h
  rw [toList_bracketed ha hb, toList_tooLargeText] at hlist
  exact hfirst (List.cons.inj hlist).1

theorem tupleText_ne_tooLargeText (parts : List String) (v : Value) : tupleText parts ≠ v.tooLargeText := by
  rw [tupleText.eq_def]
  split
  · rename_i part
    intro h
    have hlist := congrArg String.toList h
    rw [String.toList_append, String.toList_append, toList_tooLargeText] at hlist
    cases hlist
  · exact bracketed_ne_tooLargeText '(' ')' rfl rfl (by decide) parts v

theorem HasOddKey.written?_ne {v : Value} (h : v.HasOddKey) : v.written? ≠ some v.tooLargeText := by
  intro heq
  cases h with
  | @list items =>
      obtain ⟨parts, -, hparts⟩ := Option.map_eq_some_iff.mp heq
      exact bracketed_ne_tooLargeText '[' ']' rfl rfl (by decide) parts _ hparts
  | @tuple items =>
      obtain ⟨parts, -, hparts⟩ := Option.map_eq_some_iff.mp heq
      exact tupleText_ne_tooLargeText parts _ hparts
  | value | key =>
      obtain ⟨parts, -, hparts⟩ := Option.map_eq_some_iff.mp heq
      exact bracketed_ne_tooLargeText '\x7b' '\x7d' rfl rfl (by decide) parts _ hparts

theorem HoldsLong.render_eq {v : Value} (h : v.HoldsLong) : v.render = v.tooLargeText := by
  rw [render, v.json?_eq_none.mpr (.inl h), v.written?_eq_none.mpr h]
  rfl

theorem HasOddKey.written?_eq_render {v : Value} (h : v.HasOddKey) (hlong : ¬ v.HoldsLong) :
    v.written? = some v.render := by
  obtain ⟨text, htext⟩ := Option.ne_none_iff_exists'.mp (mt v.written?_eq_none.mp hlong)
  rw [render, v.json?_eq_none.mpr (.inr h), htext]
  rfl

theorem json?_eq_render {v : Value} (hlong : ¬ v.HoldsLong) (hodd : ¬ v.HasOddKey) : v.json? = some v.render := by
  obtain ⟨text, htext⟩ := Option.ne_none_iff_exists'.mp (mt v.json?_eq_none.mp (not_or.mpr ⟨hlong, hodd⟩))
  rw [render, htext]

/-- The text of a value in an error message is always made. It is the one for values that are too large exactly if
there is an integer that is too long anywhere inside, keys included. Without such an integer it is the written form
exactly if some map outside of keys has a key that JSON has no name for, and otherwise it is the JSON text, which is
read as the value in the terms of JSON. So the error about a value can always be raised, with this text in its
message. -/
theorem render_exact (v : Value) :
    ∃ text, Attempt.render v = .ok text ∧
      (text = v.tooLargeText ↔ v.HoldsLong) ∧
      (v.json? = none ∧ v.written? = some text ↔ ¬ v.HoldsLong ∧ v.HasOddKey) ∧
      (v.json? = some text ∧ Json.read? text = some v.inJson ↔ ¬ v.HoldsLong ∧ ¬ v.HasOddKey) ∧
      ∀ label, (Attempt.fail label v : Attempt Value) = .error (.mismatch ⟨label, v⟩) ∧
        (Mismatch.mk label v).message = "Parse error: expected " ++ label ++ " but found " ++ text := by
  have hneither (hjson : v.json? = none) : v.HoldsLong ∨ v.HasOddKey := v.json?_eq_none.mp hjson
  have hread (hlong : ¬ v.HoldsLong) (hodd : ¬ v.HasOddKey) : Json.read? v.render = some v.inJson :=
    (isReadAs_json v (json?_eq_render hlong hodd)).whole
  refine ⟨v.render, Attempt.render_eq v, ⟨?_, HoldsLong.render_eq⟩, ⟨?_, ?_⟩, ⟨?_, ?_⟩,
    fun label => ⟨Attempt.fail_eq label v, rfl⟩⟩
  · intro htext
    by_contra hlong
    by_cases hodd : v.HasOddKey
    · exact hodd.written?_ne (htext ▸ hodd.written?_eq_render hlong)
    · have hjson := hread hlong hodd
      rw [htext, read?_tooLargeText] at hjson
      cases hjson
  · rintro ⟨hjson, hwritten⟩
    have hlong : ¬ v.HoldsLong := by
      rw [← written?_eq_none, hwritten]
      exact nofun
    exact ⟨hlong, (hneither hjson).resolve_left hlong⟩
  · rintro ⟨hlong, hodd⟩
    exact ⟨v.json?_eq_none.mpr (.inr hodd), hodd.written?_eq_render hlong⟩
  · rintro ⟨hjson, -⟩
    rw [← not_or, ← json?_eq_none, hjson]
    exact nofun
  · rintro ⟨hlong, hodd⟩
    exact ⟨json?_eq_render hlong hodd, hread hlong hodd⟩

end Wireform.Value
