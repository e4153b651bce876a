import Wireform.Proofs.Schema.Conformance

/-!
# What is written is plain

What a schema writes of a value that it has read from a plain one is plain again: texts, numbers, truth values
and null, in lists and in maps under different texts. Its shape is that of the schema: an object has the
declared fields in their order, a tuple is a list of as many values as positions are declared, and a variant
has the fields of the branch that the discriminant of the value selects, with the discriminant holding the tag.
-/
namespace Wireform

namespace Value

/-- A tree of lists and of maps under different texts, with texts, numbers, truth values and null as leaves. -/
inductive Plain : Value → Prop
  | null : Plain .null
  | bool (b : Bool) : Plain (.bool b)
  | int (n : Int) : Plain (.int n)
  | float (x : Double) : Plain (.float x)
  | str (s : String) : Plain (.str s)
  | list {items : List Value} : (∀ v ∈ items, Plain v) → Plain (.list items)
  | map {names : List String} {entries : List (Value × Value)} : names.Nodup →
      entries.map Prod.fst = names.map .str → (∀ e ∈ entries, Plain e.2) → Plain (.map entries)

theorem Plain.items {v : Value} (h : v.Plain) {items : List Value} (hitems : v.items? = some items) :
    ∀ v ∈ items, v.Plain := by
  cases h with
  | list h =>
      cases hitems
      exact h
  | _ => cases hitems

theorem Plain.getD {v : Value} (h : v.Plain) (name : String) : (Value.getD name v.entries).Plain := by
  unfold Value.getD
  cases hfound : get? name v.entries with
  | none => exact .null
  | some w =>
      cases h with
      | map _ _ h => exact h _ (mem_of_get? hfound)
      | _ => cases hfound

theorem Plain.getD_items {items : List Value} (h : ∀ v ∈ items, v.Plain) (i : Nat) :
    (items.getD i .null).Plain := by
  rw [List.getD_eq_getElem?_getD]
  cases hi : items[i]? with
  | none => exact .null
  | some v => exact h v (List.mem_of_getElem? hi)

/-- With different texts as keys, every entry is found under its text. -/
theorem getD_of_mem {names : List String} (hnames : names.Nodup) {entries : List (Value × Value)}
    (hkeys : entries.map Prod.fst = names.map .str) :
    ∀ e ∈ entries, ∃ name ∈ names, e.1 = .str name ∧ Value.getD name entries = e.2 := by
  induction names generalizing entries with
  | nil => simp [List.map_eq_nil_iff.mp hkeys]
  | cons name names ih =>
      obtain ⟨e, entries, rfl, he, hkeys⟩ := List.map_eq_cons_iff.mp hkeys
      obtain ⟨hnew, hnames⟩ := List.nodup_cons.mp hnames
      refine List.forall_mem_cons.mpr ⟨⟨name, List.mem_cons_self, he, ?_⟩, fun f hf => ?_⟩
      · rw [getD_cons, if_pos (sameKey_str.mpr he)]
      · obtain ⟨other, hother, hf, hfound⟩ := ih hnames hkeys f hf
        refine ⟨other, List.mem_cons_of_mem _ hother, hf, ?_⟩
        have hne : name ≠ other := fun heq => hnew (heq ▸ hother)
        rw [getD_cons, if_neg, hfound]
        rw [sameKey_str, he, Value.str.injEq]
        exact hne

/-- A map under different texts is plain if what is found under them is. -/
theorem Plain.of_getD {names : List String} {entries : List (Value × Value)} (hnames : names.Nodup)
    (hkeys : entries.map Prod.fst = names.map .str)
    (h : ∀ name ∈ names, (Value.getD name entries).Plain) : (Value.map entries).Plain := by
  refine .map hnames hkeys fun e he => ?_
  obtain ⟨name, hname, -, hfound⟩ := getD_of_mem hnames hkeys e he
  exact hfound ▸ h name hname

end Value

/-- What a scalar reads from a plain value is written as a plain value. -/
theorem Scalar.plain_write {kind : Scalar} {v t w : Value} (hv : v.Plain) (ht : kind.read? v = some t)
    (hw : kind.write t = .ok w) : w.Plain := by
  have hconforms := conforms_of_read? ht
  cases kind with
  | raw =>
      have heq : t = v := hconforms
      exact Except.ok.inj hw ▸ heq ▸ hv
  | string =>
      obtain ⟨s, rfl⟩ := hconforms
      exact Except.ok.inj hw ▸ .str s
  | boolean =>
      obtain ⟨b, rfl⟩ := hconforms
      exact Except.ok.inj hw ▸ .bool b
  | integer =>
      obtain ⟨n, rfl⟩ := hconforms
      exact Except.ok.inj hw ▸ .int n
  | float =>
      obtain ⟨x, rfl, -⟩ := hconforms
      exact Except.ok.inj hw ▸ .float x
  | dateUnixSecs =>
      obtain ⟨u, rfl, -⟩ := hconforms
      exact Except.ok.inj hw ▸ .float _
  | dateUnixMillis =>
      obtain ⟨u, rfl, -⟩ := hconforms
      exact Except.ok.inj hw ▸ .int _
  | dateIso =>
      obtain ⟨u, rfl, -⟩ := hconforms
      simp only [write] at hw
      split at hw
      · exact Except.ok.inj hw ▸ .str _
      · cases hw
  | nothing => exact Except.ok.inj hw ▸ .str ""

/-- A text is written as a text, unless it stands where a time is needed. -/
theorem Scalar.plain_write_str {kind : Scalar} {s : String} {w : Value}
    (hw : kind.write (.str s) = .ok w) : w.Plain := by
  cases kind with
  | dateUnixSecs | dateUnixMillis | dateIso => cases hw
  | _ => exact Except.ok.inj hw ▸ .str _

namespace Schema

/-- `Writes s v w`: the value `w` has the shape in which the schema `s` writes what it has read from `v`. -/
inductive Writes : Schema → Value → Value → Prop
  | scalar {kind : Scalar} {v w : Value} : w.Plain → Writes (.scalar kind) v w
  | absent (inner : Schema) (v : Value) : Writes (.optional inner) v .null
  | present {inner : Schema} {v w : Value} : Writes inner v w → Writes (.optional inner) v w
  | null (inner : Schema) (v : Value) : Writes (.nullable inner) v .null
  | notNull {inner : Schema} {v w : Value} : Writes inner v w → Writes (.nullable inner) v w
  | array {item : Schema} {v : Value} {items ws : List Value} : v.items? = some items →
      items.length = ws.length → (∀ p ∈ items.zip ws, Writes item p.1 p.2) →
      Writes (.array item) v (.list ws)
  | object {fields : List (String × Schema)} {v : Value} {out : List (Value × Value)} :
      out.map Prod.fst = fields.map (fun f => .str f.1) →
      (∀ f ∈ fields, Writes f.2 (Value.getD f.1 v.entries) (Value.getD f.1 out)) →
      Writes (.object fields) v (.map out)
  | tuple {positions : List Schema} {v : Value} {items ws : List Value} : v.items? = some items →
      ws.length = positions.length →
      (∀ (i : Nat) (p : Schema), positions[i]? = some p →
        Writes p (items.getD i .null) (ws.getD i .null)) →
      Writes (.tuple positions) v (.list ws)
  | oneOf {members : List String} {v : Value} {s : String} : s ∈ members →
      Writes (.oneOf members) v (.str s)
  /-- The selected branch writes an object, and the tag is set in it. -/
  | variant {discriminant tag : String} {branches : List Branch} {fields : List (String × Schema)}
      {v : Value} {ws out : List (Value × Value)} :
      Value.getD discriminant v.entries = .str tag → branch? tag branches = some fields →
      Writes (.object fields) v (.map ws) →
      out.map Prod.fst = (variantKeys discriminant fields).map .str →
      Value.getD discriminant out = .str tag →
      (∀ name, name ≠ discriminant → Value.getD name out = Value.getD name ws) →
      Writes (.variant discriminant branches) v (.map out)

theorem nodup_variantKeys {discriminant : String} {fields : List (String × Schema)}
    (hnames : (fields.map Prod.fst).Nodup) : (variantKeys discriminant fields).Nodup := by
  unfold variantKeys
  split
  · exact hnames
  · rename_i hnew
    exact List.nodup_append.mpr ⟨hnames, List.nodup_singleton _, fun a ha b hb heq =>
      hnew (List.mem_singleton.mp hb ▸ heq ▸ ha)⟩

/-- Whatever has the shape that a schema writes is plain. -/
theorem Writes.plain {s : Schema} {v w : Value} (h : s.Writes v w) (hs : s.Built) : w.Plain := by
  induction h with
  | scalar h => exact h
  | absent | null => exact .null
  | present _ ih | notNull _ ih =>
      cases hs
      exact ih ‹_›
  | @array item v items ws _ hlength _ ih =>
      cases hs with
      | array hs =>
          refine .list fun w hw => ?_
          rw [← List.map_snd_zip hlength.ge] at hw
          obtain ⟨p, hp, rfl⟩ := List.mem_map.mp hw
          exact ih p hp hs
  | @object fields v out hkeys _ ih =>
      cases hs with
      | object hnames hs =>
          refine .of_getD hnames (by rwa [List.map_map]) fun name hname => ?_
          obtain ⟨f, hf, rfl⟩ := List.mem_map.mp hname
          exact ih f hf (hs f hf)
  | @tuple positions v items ws _ hlength _ ih =>
      cases hs with
      | tuple hs =>
          refine .list fun w hw => ?_
          obtain ⟨i, hi⟩ := List.mem_iff_getElem?.mp hw
          have hbound : i < positions.length := hlength ▸ (List.getElem?_eq_some_iff.mp hi).choose
          have hp := List.getElem?_eq_getElem hbound
          have hplain := ih i _ hp (hs _ (List.mem_of_getElem? hp))
          rwa [List.getD_eq_getElem?_getD, hi, Option.getD_some] at hplain
  | oneOf => exact .str _
  | @variant discriminant tag branches fields v ws out _ hfields _ hkeys htag hrest ih =>
      cases hs with
      | variant _ hnames hs =>
          have hmem := mem_of_branch? hfields
          have hbranch : (Value.map ws).Plain := ih (.object (hnames _ hmem) (hs _ hmem))
          refine .of_getD (nodup_variantKeys (hnames _ hmem)) hkeys fun name _ => ?_
          by_cases hname : name = discriminant
          · rw [hname, htag]
            exact .str tag
          · rw [hrest name hname]
            exact hbranch.getD name

/-- A schema that reads a text writes any text in its shape, if it writes texts at all. -/
theorem Built.writes_str {s : Schema} (hs : s.Built) {text : String} {t w : Value}
    (ht : s.decode (.str text) = .ok t) (hw : s.encode (.str text) = .ok w) :
    s.Writes (.str text) w := by
  induction hs generalizing t with
  | scalar kind => exact .scalar (Scalar.plain_write_str hw)
  | optional _ ih => exact .present (ih ht hw)
  | nullable _ ih => exact .notNull (ih ht hw)
  | array => cases ht
  | @object fields _ _ _ =>
      simp only [decode] at ht
      split at ht
      · rename_i hempty
        obtain rfl := List.isEmpty_iff.mp hempty
        cases hw
        exact .object rfl (by simp)
      · cases ht
  | tuple => cases ht
  | oneOf members =>
      obtain ⟨s, hmem, heq, rfl⟩ := decode_oneOf_eq_ok.mp ht
      cases heq
      exact Except.ok.inj hw ▸ .oneOf hmem
  | variant => cases ht

/-- The fields of an object are written in their shape if each field is. -/
theorem writes_object {fields : List (String × Schema)} (hnames : (fields.map Prod.fst).Nodup)
    {v t : Value} {ws : List (Value × Value)} (hws : encodeFields fields t = .ok ws)
    (h : ∀ f ∈ fields, ∀ w, f.2.encode (t.field f.1) = .ok w → f.2.Writes (Value.getD f.1 v.entries) w) :
    (Schema.object fields).Writes v (.map ws) := by
  obtain ⟨k, rfl, hk⟩ := (encodeFields_eq_ok hnames).mp hws
  refine .object (by simp) fun f hf => ?_
  rw [Value.getD_named (List.mem_map_of_mem hf)]
  exact h f hf _ (hk f hf)

/-- Null is written as null; all else is read and written by the schema inside. -/
theorem of_orNull {inner : Schema} {v t w : Value} (ht : orNull inner.decode v = .ok t)
    (hw : nullOr inner.encode t = .ok w) :
    w = .null ∨ (inner.decode v = .ok t ∧ inner.encode t = .ok w) := by
  rcases orNull_eq_ok ht with rfl | ht
  · exact .inl (Except.ok.inj hw).symm
  · cases t with
    | null => exact .inl (Except.ok.inj hw).symm
    | _ => exact .inr ⟨ht, hw⟩

theorem writes_items {item : Schema} {items values ws : List Value}
    (h : ∀ {v t w : Value}, v.Plain → item.decode v = .ok t → item.encode t = .ok w → item.Writes v w)
    (hplain : ∀ v ∈ items, v.Plain) (hvalues : collect item.decode items = .ok values)
    (hws : collect item.encode values = .ok ws) : List.Forall₂ item.Writes items ws := by
  have hread := collect_eq_ok.mp hvalues
  have hwritten := collect_eq_ok.mp hws
  clear hvalues hws
  induction hread generalizing ws with
  | nil =>
      cases hwritten
      exact .nil
  | cons hv _ ih =>
      obtain ⟨hitem, hplain⟩ := List.forall_mem_cons.mp hplain
      cases hwritten with
      | cons hw hrest => exact .cons (h hitem hv hw) (ih hplain hrest)

/-- The fields of a branch are written with the tag set among them. -/
theorem writes_variant {discriminant tag : String} {branches : List Branch}
    {fields : List (String × Schema)} (hfields : branch? tag branches = some fields) {v : Value}
    (htag : Value.getD discriminant v.entries = .str tag) {k : String → Value}
    (h : (Schema.object fields).Writes v (.map (Value.named (fields.map Prod.fst) k))) :
    (Schema.variant discriminant branches).Writes v
      (.map (Value.put (.str discriminant) (.str tag) (Value.named (fields.map Prod.fst) k))) :=
  .variant htag hfields h (keys_put_named ..) (Value.getD_put_self ..)
    fun _ hname => Value.getD_put_of_ne hname ..

/-- What a built schema has read from a plain value is written in the shape of the schema. -/
theorem Built.writes {s : Schema} (hs : s.Built) {v t w : Value} (hv : v.Plain)
    (ht : s.decode v = .ok t) (hw : s.encode t = .ok w) : s.Writes v w := by
  induction hs generalizing v t w with
  | scalar kind =>
      simp only [decode] at ht
      split at ht
      · rename_i u hu
        cases ht
        exact .scalar (Scalar.plain_write hv hu hw)
      · cases ht
  | optional _ ih =>
      rcases of_orNull ht hw with rfl | ⟨ht, hw⟩
      · exact .absent _ v
      · exact .present (ih hv ht hw)
  | nullable _ ih =>
      rcases of_orNull ht hw with rfl | ⟨ht, hw⟩
      · exact .null _ v
      · exact .notNull (ih hv ht hw)
  | array _ ih =>
      obtain ⟨items, values, hitems, hvalues, rfl⟩ := decode_array_eq_ok.mp ht
      obtain ⟨ws, hws, rfl⟩ := map_eq_ok.mp hw
      obtain ⟨hlength, hzip⟩ := List.forall₂_iff_zip.mp (writes_items ih (hv.items hitems) hvalues hws)
      exact .array hitems hlength fun p hp => hzip hp
  | object hnames _ ih =>
      obtain ⟨out, hout, rfl⟩ := decode_object ht
      obtain ⟨ws, hws, rfl⟩ := map_eq_ok.mp hw
      obtain ⟨g, rfl, hg⟩ := (decodeFields_eq_ok hnames).mp hout
      refine writes_object hnames hws fun f hf w hw => ?_
      have hfield : (Value.map (Value.named _ g)).field f.1 = g f.1 :=
        Value.getD_named (List.mem_map_of_mem hf) g
      rw [hfield] at hw
      exact ih f hf (hv.getD f.1) (hg f hf) hw
  | tuple _ ih =>
      obtain ⟨items, values, hitems, hvalues, rfl⟩ := decode_tuple_eq_ok.mp ht
      obtain ⟨ws, hws, rfl⟩ := map_eq_ok.mp hw
      obtain ⟨hlength, hread⟩ := decode_of_decodePositions hvalues
      obtain ⟨hcount, hwritten⟩ := encode_of_encodePositions hws
      refine .tuple hitems hcount fun i p hp => ?_
      obtain ⟨item, hitem, hencode⟩ := hwritten i p hp
      have hvalue : item = values.getD i .null := by
        rw [Nat.zero_add] at hitem
        exact (Except.ok.inj hitem).symm
      rw [hvalue] at hencode
      exact ih p (List.mem_of_getElem? hp) (.getD_items (hv.items hitems) i) (hread i p hp) hencode
  | oneOf members =>
      obtain ⟨s, hmem, rfl, rfl⟩ := decode_oneOf_eq_ok.mp ht
      exact Except.ok.inj hw ▸ .oneOf hmem
  | @variant discriminant branches _ hnames hs ih =>
      obtain ⟨entries, tag, fields, out, rfl, htag, hfields, hout, rfl⟩ := decode_variant_eq_ok.mp ht
      have hmem := mem_of_branch? hfields
      obtain ⟨g, rfl, hg⟩ := (decodeFields_eq_ok (hnames _ hmem)).mp hout
      simp only [encode, Value.getD_put_self, encodeBranch_eq, hfields, Option.map_some] at hw
      obtain ⟨ws, hws, rfl⟩ := map_eq_ok.mp hw
      have hbranch : (Schema.object fields).Writes (.map entries) (.map ws) := by
        refine writes_object (hnames _ hmem) hws fun f hf w hw => ?_
        by_cases hclash : f.1 = discriminant
        -- A field with the name of the discriminant has read the tag, and is given the tag to write.
        · have hread := hg f hf
          have hfound : Value.getD f.1 entries = .str tag := by rw [hclash, htag]
          rw [hclash, Value.field, Value.getD_put_self] at hw
          rw [hfound] at hread
          change f.2.Writes (Value.getD f.1 entries) w
          rw [hfound]
          exact (hs _ hmem f hf).writes_str hread hw
        · rw [Value.field, Value.getD_put_of_ne hclash, Value.getD_named (List.mem_map_of_mem hf)] at hw
          exact ih _ hmem f hf (hv.getD f.1) (hg f hf) hw
      obtain ⟨k, rfl, -⟩ := (encodeFields_eq_ok (hnames _ hmem)).mp hws
      exact writes_variant hfields htag hbranch

end Schema

/-- What the schema of an expression has read from a plain value is written as a plain value in the shape of
the schema. -/
theorem Expr.encode_plain {e : Expr} {s : Schema} {v t w : Value} (hs : e.schema.1 = .ok s)
    (hv : v.Plain) (ht : s.decode v = .ok t) (hw : s.encode t = .ok w) : w.Plain ∧ s.Writes v w := by
  have hwrites := (built_of_schema hs).writes hv ht hw
  exact ⟨hwrites.plain (built_of_schema hs), hwrites⟩

/-- A span of time with two ends, the second of which may be open. -/
def timeSpan : Schema :=
  .variant "type" [("span", [("at", .tuple [.scalar .dateIso, .optional (.scalar .dateIso)])])]

def epochDay : Value :=
  .map [(.str "type", .str "span"), (.str "at", .list [.str "1970-01-01T00:00Z"])]

theorem plain_epochDay : epochDay.Plain := by
  have hnames : ["type", "at"].Nodup := by decide
  refine .map hnames rfl ?_
  refine List.forall_mem_cons.mpr ⟨.str _, List.forall_mem_singleton.mpr (.list ?_)⟩
  exact List.forall_mem_singleton.mpr (.str _)

/-- A tuple of a time and nothing is written as a list of a text and null. -/
theorem Expr.encode_plain_timeSpan :
    (Value.map [(.str "at", .list [.str "1970-01-01T00:00:00.000Z", .null]),
      (.str "type", .str "span")]).Plain := by
  have ht : timeSpan.decode epochDay = .ok (.map [
      (.str "at", .tuple [.datetime ⟨DateTime.epoch, by decide, some .utc⟩, .null]),
      (.str "type", .str "span")]) := by
    with_unfolding_all rfl
  exact (Expr.encode_plain (e := .variant "type" [.value (.str "span"), .schema (.object (.map
    [(.str "at", .schema (.tuple [.schema (.scalar .dateIso),
      .schema (.optional (.schema (.scalar .dateIso)))]))]))])
    rfl plain_epochDay ht (by with_unfolding_all rfl)).1

end Wireform
