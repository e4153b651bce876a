import Wireform.Value.Text
import Wireform.Proofs.Numeral
import Mathlib.Data.List.Basic

/-!
# Values without a text

A value has a written form, and a plain text, unless an integer somewhere inside has too many digits.
-/
namespace Wireform.Value

/-- Somewhere inside there is an integer with too many digits. -/
inductive HoldsLong : Value → Prop
  | int {n : Int} : Numeral.tooLarge ≤ n.natAbs → HoldsLong (.int n)
  | list {items : List Value} {v : Value} : v ∈ items → HoldsLong v → HoldsLong (.list items)
  | tuple {items : List Value} {v : Value} : v ∈ items → HoldsLong v → HoldsLong (.tuple items)
  | set {items : List Value} {v : Value} : v ∈ items → HoldsLong v → HoldsLong (.set items)
  | key {entries : List (Value × Value)} {e : Value × Value} : e ∈ entries → HoldsLong e.1 →
      HoldsLong (.map entries)
  | value {entries : List (Value × Value)} {e : Value × Value} : e ∈ entries → HoldsLong e.2 →
      HoldsLong (.map entries)
  | attribute {attributes : List (String × Value)} {a : String × Value} : a ∈ attributes →
      HoldsLong a.2 → HoldsLong (.record attributes)

mutual

theorem written?_eq_none (v : Value) : v.written? = none ↔ v.HoldsLong := by
  match v with
  | .int n =>
      rw [written?, Numeral.decimal?_eq_none]
      exact ⟨.int, fun | .int h => h⟩
  | .list items =>
      rw [written?, Option.map_eq_none_iff, writtenItems?_eq_none]
      exact ⟨fun ⟨_, hv, h⟩ => .list hv h, fun | .list hv h => ⟨_, hv, h⟩⟩
  | .tuple items =>
      rw [written?, Option.map_eq_none_iff, writtenItems?_eq_none]
      exact ⟨fun ⟨_, hv, h⟩ => .tuple hv h, fun | .tuple hv h => ⟨_, hv, h⟩⟩
  | .set items =>
      rw [written?, Option.map_eq_none_iff, writtenItems?_eq_none]
      exact ⟨fun ⟨_, hv, h⟩ => .set hv h, fun | .set hv h => ⟨_, hv, h⟩⟩
  | .map entries =>
      rw [written?, Option.map_eq_none_iff, writtenEntries?_eq_none]
      constructor
      · rintro ⟨e, he, h | h⟩
        · exact .key he h
        · exact .value he h
      · intro h
        cases h with
        | key he h => exact ⟨_, he, .inl h⟩
        | value he h => exact ⟨_, he, .inr h⟩
  | .record attributes =>
      rw [written?, Option.map_eq_none_iff, writtenAttributes?_eq_none]
      exact ⟨fun ⟨_, ha, h⟩ => .attribute ha h, fun | .attribute ha h => ⟨_, ha, h⟩⟩
  | .null | .bool _ | .float _ | .str _ | .datetime _ | .day _ | .bytes _ => exact ⟨nofun, nofun⟩

theorem writtenItems?_eq_none (items : List Value) :
    writtenItems? items = none ↔ ∃ v ∈ items, v.HoldsLong := by
  match items with
  | [] => simp [writtenItems?]
  | item :: items =>
      rw [writtenItems?, List.exists_mem_cons_iff, ← written?_eq_none item, ← writtenItems?_eq_none items]
      cases item.written? <;> cases writtenItems? items <;> simp

theorem writtenEntries?_eq_none (entries : List (Value × Value)) :
    writtenEntries? entries = none ↔ ∃ e ∈ entries, e.1.HoldsLong ∨ e.2.HoldsLong := by
  match entries with
  | [] => simp [writtenEntries?]
  | (key, value) :: entries =>
      rw [writtenEntries?, List.exists_mem_cons_iff, ← written?_eq_none key, ← written?_eq_none value,
        ← writtenEntries?_eq_none entries]
      cases key.written? <;> cases value.written? <;> cases writtenEntries? entries <;> simp

theorem writtenAttributes?_eq_none (attributes : List (String × Value)) :
    writtenAttributes? attributes = none ↔ ∃ a ∈ attributes, a.2.HoldsLong := by
  match attributes with
  | [] => simp [writtenAttributes?]
  | (_, value) :: attributes =>
      rw [writtenAttributes?, List.exists_mem_cons_iff, ← written?_eq_none value,
        ← writtenAttributes?_eq_none attributes]
      cases value.written? <;> cases writtenAttributes? attributes <;> simp

end

/-- The plain text of a value is missing where the written form is. -/
theorem text?_eq_none {v : Value} : v.text? = none ↔ v.HoldsLong := by
  rw [← written?_eq_none]
  cases v with
  | str s | datetime t | day n => exact ⟨nofun, nofun⟩
  | _ => exact Iff.rfl

end Wireform.Value
