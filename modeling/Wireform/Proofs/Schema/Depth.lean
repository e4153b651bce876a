import Wireform.Proofs.Registry.Guard
import Wireform.Proofs.Schema.Conformance
import Wireform.Proofs.Schema.RoundTrip

/-!
# The depth of what is written

Reading and writing again adds no level. A part that is missing reads as null, the discriminant that a variant
adds is a text, and every list or map that is written stands where one was read. An object without fields is
the exception, since it reads anything and writes an empty map; as the branch of a variant it reads a map.
-/
namespace Wireform

/-- Every scalar but the raw one is written as a value without parts. -/
theorem Scalar.depth_write_le {kind : Scalar} {v t w : Value} (ht : kind.read? v = some t)
    (hw : kind.write t = .ok w) : w.depth ≤ v.depth := by
  have hconforms := conforms_of_read? ht
  cases kind with
  | raw =>
      have heq : t = v := hconforms
      rw [← Except.ok.inj hw, heq]
  | string | boolean | integer =>
      obtain ⟨_, rfl⟩ := hconforms
      exact (Except.ok.inj hw) ▸ Nat.zero_le _
  | float =>
      obtain ⟨x, rfl, -⟩ := hconforms
      exact (Except.ok.inj hw) ▸ Nat.zero_le _
  | dateUnixSecs | dateUnixMillis =>
      obtain ⟨u, rfl, -⟩ := hconforms
      exact (Except.ok.inj hw) ▸ Nat.zero_le _
  | dateIso =>
      obtain ⟨u, rfl, -⟩ := hconforms
      simp only [write] at hw
      split at hw
      · exact (Except.ok.inj hw) ▸ Nat.zero_le _
      · cases hw
  | nothing => exact (Except.ok.inj hw) ▸ Nat.zero_le _

namespace Schema

/-- What the schema writes of a value that it has read is no deeper than the value. -/
def KeepsDepth (s : Schema) : Prop :=
  ∀ v t w : Value, s.decode v = .ok t → s.encode t = .ok w → w.depth ≤ v.depth

theorem keepsDepth_orNull {inner : Schema} (h : inner.KeepsDepth) {v t w : Value}
    (ht : orNull inner.decode v = .ok t) (hw : nullOr inner.encode t = .ok w) : w.depth ≤ v.depth := by
  have hnull : t = .null → w.depth ≤ v.depth := by
    rintro rfl
    exact (Except.ok.inj hw) ▸ Nat.zero_le _
  rcases orNull_eq_ok ht with ht | ht
  · exact hnull ht
  · cases t with
    | null => exact hnull rfl
    | _ => exact h _ _ _ ht hw

theorem depth_collect_le {item : Schema} (h : item.KeepsDepth) {items values ws : List Value}
    (hvalues : collect item.decode items = .ok values) (hws : collect item.encode values = .ok ws) :
    Value.depthItems ws ≤ Value.depthItems items := by
  have hread := collect_eq_ok.mp hvalues
  have hwritten := collect_eq_ok.mp hws
  clear hvalues hws
  induction hread generalizing ws with
  | nil =>
      cases hwritten
      exact le_rfl
  | cons hv _ ih =>
      cases hwritten with
      | cons hw hrest =>
          simp only [Value.depthItems]
          exact max_le_max (h _ _ _ hv hw) (ih hrest)

theorem keepsDepth_array {item : Schema} (h : item.KeepsDepth) : (array item).KeepsDepth := by
  intro v t w ht hw
  obtain ⟨items, values, hitems, hvalues, rfl⟩ := decode_array_eq_ok.mp ht
  obtain ⟨ws, hws, rfl⟩ := map_eq_ok.mp hw
  rw [Value.depth_of_items? hitems, Value.depth]
  exact Nat.succ_le_succ (depth_collect_le h hvalues hws)

theorem keepsDepth_tuple {positions : List Schema} (h : ∀ p ∈ positions, p.KeepsDepth) :
    (tuple positions).KeepsDepth := by
  intro v t w ht hw
  obtain ⟨items, values, hitems, hvalues, rfl⟩ := decode_tuple_eq_ok.mp ht
  obtain ⟨ws, hws, rfl⟩ := map_eq_ok.mp hw
  obtain ⟨hlength, hread⟩ := decode_of_decodePositions hvalues
  obtain ⟨hcount, hwritten⟩ := encode_of_encodePositions hws
  rw [Value.depth_of_items? hitems, Value.depth]
  refine Nat.succ_le_succ (Value.depthItems_le_iff.mpr fun w hw => ?_)
  obtain ⟨i, hi⟩ := List.mem_iff_getElem?.mp hw
  have hbound : i < positions.length := hcount ▸ (List.getElem?_eq_some_iff.mp hi).choose
  have hp := List.getElem?_eq_getElem hbound
  obtain ⟨item, hitem, hencode⟩ := hwritten i _ hp
  have hvalue : item = values.getD i .null := by
    rw [Nat.zero_add] at hitem
    exact (Except.ok.inj hitem).symm
  have hsame : ws.getD i .null = w := by rw [List.getD_eq_getElem?_getD, hi, Option.getD_some]
  rw [hvalue, hsame] at hencode
  have hkept := h _ (List.mem_of_getElem? hp) _ _ _ (hread i _ hp) hencode
  exact hkept.trans (Value.depth_getD_items_le items i)

variable {fields : List (String × Schema)} {entries out ws : List (Value × Value)}

/-- A field is written no deeper than the map that it was read from, unless its value was changed in
between. -/
theorem depth_encodeFields_le (hnames : (fields.map Prod.fst).Nodup)
    (h : ∀ f ∈ fields, f.2.KeepsDepth) (hout : decodeFields fields entries = .ok out) {v : Value}
    (hws : encodeFields fields v = .ok ws) :
    ∀ e ∈ ws, ∃ name, e.1 = .str name ∧
      (v.field name = Value.getD name out → e.2.depth ≤ Value.depthEntries entries) := by
  obtain ⟨g, rfl, hg⟩ := (decodeFields_eq_ok hnames).mp hout
  intro e he
  obtain ⟨f, hf, hkey, hw⟩ := (encode_of_encodeFields hws).2 e he
  refine ⟨f.1, hkey, fun hfield => ?_⟩
  rw [hfield, Value.getD_named (List.mem_map_of_mem hf)] at hw
  exact (h f hf _ _ _ (hg f hf) hw).trans (Value.depth_getD_le f.1 entries)

theorem keepsDepth_object (hne : fields ≠ []) (hnames : (fields.map Prod.fst).Nodup)
    (h : ∀ f ∈ fields, f.2.KeepsDepth) : (object fields).KeepsDepth := by
  intro v t w ht hw
  obtain ⟨entries, rfl⟩ : ∃ entries, v = .map entries := by
    have hempty : fields.isEmpty = false := List.isEmpty_eq_false_iff.mpr hne
    cases v with
    | map entries => exact ⟨entries, rfl⟩
    | _ => simp [decode, hempty] at ht
  obtain ⟨out, hout, rfl⟩ := decode_object ht
  obtain ⟨ws, hws, rfl⟩ := map_eq_ok.mp hw
  refine Nat.succ_le_succ (Value.depthEntries_le_iff.mpr fun e he => ?_)
  obtain ⟨name, -, hdepth⟩ := depth_encodeFields_le hnames h hout hws e he
  exact hdepth rfl

theorem keepsDepth_variant {discriminant : String} {branches : List Branch}
    (hnames : ∀ b ∈ branches, (b.2.map Prod.fst).Nodup)
    (h : ∀ b ∈ branches, ∀ f ∈ b.2, f.2.KeepsDepth) : (variant discriminant branches).KeepsDepth := by
  intro v t w ht hw
  obtain ⟨entries, tag, fields, out, rfl, -, hfields, hout, rfl⟩ := decode_variant_eq_ok.mp ht
  have hmem := mem_of_branch? hfields
  simp only [encode, Value.getD_put_self, encodeBranch_eq, hfields, Option.map_some] at hw
  obtain ⟨ws, hws, rfl⟩ := map_eq_ok.mp hw
  have hkeys : (ws.map Prod.fst).Nodup := by
    have hstrings := (hnames _ hmem).map fun _ _ => Value.str.inj
    rwa [List.map_map, Function.comp_def, ← (encode_of_encodeFields hws).1] at hstrings
  refine Nat.succ_le_succ (Value.depthEntries_le_iff.mpr fun e he => ?_)
  -- A field with the name of the discriminant is written from the tag, but what is written is replaced.
  rcases Value.mem_put hkeys e he with rfl | ⟨he, hne⟩
  · exact Nat.zero_le _
  · obtain ⟨name, hkey, hdepth⟩ := depth_encodeFields_le (hnames _ hmem) (h _ hmem) hout hws e he
    have hother : name ≠ discriminant := fun heq => hne (heq ▸ hkey)
    exact hdepth (Value.getD_put_of_ne hother _ _)

/-- If every object has fields, writing keeps within the depth of what was read. -/
theorem Built.keepsDepth {s : Schema} (hs : s.Built) (hfields : ¬ Part (.object []) s) :
    s.KeepsDepth := by
  induction hs with
  | scalar kind =>
      intro v t w ht hw
      simp only [decode] at ht
      split at ht
      · rename_i u hu
        cases ht
        exact Scalar.depth_write_le hu hw
      · cases ht
  | optional _ ih => exact fun _ _ _ => keepsDepth_orNull (ih fun hp => hfields (.optional hp))
  | nullable _ ih => exact fun _ _ _ => keepsDepth_orNull (ih fun hp => hfields (.nullable hp))
  | array _ ih => exact keepsDepth_array (ih fun hp => hfields (.array hp))
  | object hnames _ ih =>
      have hne : _ ≠ [] := fun heq => hfields (heq ▸ .self)
      exact keepsDepth_object hne hnames fun f hf => ih f hf fun hp => hfields (.field hf hp)
  | tuple _ ih => exact keepsDepth_tuple fun p hp => ih p hp fun hpart => hfields (.position hp hpart)
  | oneOf members =>
      intro v t w ht hw
      obtain ⟨s, -, rfl, rfl⟩ := decode_oneOf_eq_ok.mp ht
      exact (Except.ok.inj hw) ▸ le_rfl
  | variant _ hnames _ ih =>
      exact keepsDepth_variant hnames fun b hb f hf => ih b hb f hf fun hp =>
        hfields (.branch hb hf hp)

/-- What is written of a value that was read is no deeper than the value, so every registry whose guard lets
the value pass lets what is written pass again. -/
theorem encode_passes_guard {s : Schema} (hs : s.Built) (hfields : ¬ Part (.object []) s)
    {v t w : Value} (ht : s.decode v = .ok t) (hw : s.encode t = .ok w) :
    w.depth ≤ v.depth ∧
      ∀ (r : Registry) (name : String), r.get? name = some s → r.Admits v →
        r.decode name v = (.ok t, []) ∧ r.encode name t = .ok w ∧ r.Admits w ∧
          r.decode name w = r.unguarded.decode name w := by
  have hdepth := hs.keepsDepth hfields v t w ht hw
  refine ⟨hdepth, fun r name hname hpass => ?_⟩
  have hpass' : r.Admits w := Registry.admits_iff.mpr fun bound hbound => by
    have hbefore := Registry.admits_iff.mp hpass bound hbound
    omega
  refine ⟨?_, ?_, hpass', hpass'.decode name⟩
  · rw [hpass.decode name]
    simp only [Registry.decode, Registry.unguarded, Registry.get?] at hname ⊢
    simp only [hname, Registry.decodeWith, ht]
    rfl
  · simp only [Registry.encode, hname, hw]

/-- Staying, or a move by one or two numbers. -/
def moves : Schema :=
  .variant "type"
    [("stay", []), ("move", [("by", .tuple [.scalar .integer, .optional (.scalar .integer)])])]

theorem built_moves : moves.Built :=
  Expr.built_of_schema (e := .variant "type"
    [.value (.str "stay"), .schema (.object (.map [])),
      .value (.str "move"), .schema (.object (.map [(.str "by", .schema (.tuple
        [.schema (.scalar .integer), .schema (.optional (.schema (.scalar .integer)))]))]))]) rfl

theorem not_part_moves : ¬ Part (.object []) moves := by
  intro h
  cases h with
  | branch hb hf hp =>
      rcases List.mem_cons.mp hb with rfl | hb
      · cases hf
      · obtain rfl := List.mem_singleton.mp hb
        obtain rfl := List.mem_singleton.mp hf
        cases hp with
        | position hq hp =>
            rcases List.mem_cons.mp hq with rfl | hq
            · cases hp
            · obtain rfl := List.mem_singleton.mp hq
              cases hp with
              | optional hp => cases hp

/-- A move by one number, in a registry that lets two levels pass. The missing number is written as null. -/
theorem encode_passes_guard_move :
    (Registry.mk [("moves", moves)] (some 2)).Admits
      (.map [(.str "by", .list [.int 1, .null]), (.str "type", .str "move")]) :=
  have h := encode_passes_guard built_moves not_part_moves
    (v := .map [(.str "type", .str "move"), (.str "by", .tuple [.str "1 step"]), (.str "to", .list [])])
    (t := .map [(.str "by", .tuple [.int 1, .null]), (.str "type", .str "move")])
    (w := .map [(.str "by", .list [.int 1, .null]), (.str "type", .str "move")]) rfl rfl
  (h.2 ⟨[("moves", moves)], some 2⟩ "moves" rfl
    (Registry.admits_iff.mpr fun _ hbound => Option.some.inj hbound ▸ by decide)).2.2.1

end Schema
end Wireform
