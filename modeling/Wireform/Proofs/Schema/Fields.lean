import Wireform.Schema.Decode
import Wireform.Schema.Definition
import Wireform.Schema.Encode
import Wireform.Proofs.Named
import Wireform.Proofs.Yields
import Mathlib.Data.List.Forall2

/-!
# Reading and writing parts

What reading and writing do with the items of an array, the fields of an object, the positions of a tuple and
the branches of a variant, each stated part by part. The fields of an object have different names, so what
they hold is a function of the name.
-/
namespace Wireform

theorem collect_cons {ε α β : Type} (f : α → Except ε β) (a : α) (as : List α) :
    collect f (a :: as) = f a >>= fun b => (collect f as).map (b :: ·) := by
  cases ha : f a with
  | error e => simp only [collect, ha]; rfl
  | ok b => cases has : collect f as <;> simp only [collect, ha, has] <;> rfl

theorem collect_eq_ok {ε α β : Type} {f : α → Except ε β} {as : List α} {bs : List β} :
    collect f as = .ok bs ↔ List.Forall₂ (fun a b => f a = .ok b) as bs := by
  induction as generalizing bs with
  | nil => cases bs <;> simp [collect]
  | cons a as ih =>
      cases ha : f a with
      | error e => cases bs <;> simp [collect, ha]
      | ok b =>
          cases has : collect f as with
          | error e =>
              have hnone (cs : List β) : ¬ List.Forall₂ (fun a b => f a = .ok b) as cs := by
                intro hcs
                have := ih.mpr hcs
                simp [has] at this
              cases bs <;> simp [collect, ha, has, hnone]
          | ok rest =>
              have hrest := ih.mp has
              constructor
              · intro h
                simp only [collect, ha, has, Except.ok.injEq] at h
                subst h
                exact .cons ha hrest
              · rintro (_ | ⟨hb, hbs⟩)
                have htail := has.symm.trans (ih.mpr hbs)
                have hhead := ha.symm.trans hb
                simp_all [collect]

theorem exists_of_mem_collect {ε α β : Type} {f : α → Except ε β} {as : List α} {bs : List β}
    (h : collect f as = .ok bs) : ∀ b ∈ bs, ∃ a, f a = .ok b := by
  have hall := collect_eq_ok.mp h
  induction hall with
  | nil => simp
  | cons hb hbs ih => exact List.forall_mem_cons.mpr ⟨⟨_, hb⟩, ih (collect_eq_ok.mpr hbs)⟩

theorem exists_ok_of_mem {ε α β : Type} {f : α → Except ε β} {as : List α} {bs : List β}
    (h : collect f as = .ok bs) : ∀ a ∈ as, ∃ b, f a = .ok b := by
  have hall := collect_eq_ok.mp h
  induction hall with
  | nil => simp
  | cons hb hbs ih => exact List.forall_mem_cons.mpr ⟨⟨_, hb⟩, ih (collect_eq_ok.mpr hbs)⟩

namespace Schema

variable {fields : List (String × Schema)}

/-- What is known of each field is known of a function of the names, since no two fields share one. -/
theorem exists_forall_fields {P : String × Schema → Value → Prop} (hnames : (fields.map Prod.fst).Nodup)
    (h : ∀ f ∈ fields, ∃ v, P f v) : ∃ g : String → Value, ∀ f ∈ fields, P f (g f.1) := by
  induction fields with
  | nil => exact ⟨fun _ => .null, by simp⟩
  | cons f fields ih =>
      simp only [List.map_cons, List.nodup_cons] at hnames
      obtain ⟨v, hv⟩ := h f List.mem_cons_self
      obtain ⟨g, hg⟩ := ih hnames.2 fun f' hf' => h f' (List.mem_cons_of_mem _ hf')
      refine ⟨fun name => if name = f.1 then v else g name, ?_⟩
      intro f' hf'
      rcases List.mem_cons.mp hf' with rfl | hf'
      · simpa using hv
      · have hne : f'.1 ≠ f.1 := fun heq => hnames.1 (heq ▸ List.mem_map_of_mem hf')
        simpa [hne] using hg f' hf'

/-- The fields of an object are read like the items of an array, each by a schema of its own. -/
theorem decodeFields_eq_collect (fields : List (String × Schema)) (entries : List (Value × Value)) :
    decodeFields fields entries =
      collect (fun f => (f.2.decode (Value.getD f.1 entries)).map fun v => (.str f.1, v)) fields := by
  induction fields with
  | nil => rfl
  | cons f fields ih =>
      rw [decodeFields, collect, ih]
      generalize collect _ fields = rest
      cases f.2.decode (Value.getD f.1 entries) <;> cases rest <;> rfl

theorem decodeFields_named {entries : List (Value × Value)} {g : String → Value}
    (h : ∀ f ∈ fields, f.2.decode (Value.getD f.1 entries) = .ok (g f.1)) :
    decodeFields fields entries = .ok (Value.named (fields.map Prod.fst) g) := by
  induction fields with
  | nil => rfl
  | cons f fields ih =>
      simp only [List.forall_mem_cons] at h
      simp only [decodeFields, h.1, ih h.2, List.map_cons, Value.named]

theorem decode_of_decodeFields {entries out : List (Value × Value)}
    (h : decodeFields fields entries = .ok out) :
    ∀ f ∈ fields, ∃ v, f.2.decode (Value.getD f.1 entries) = .ok v := by
  intro f hf
  rw [decodeFields_eq_collect] at h
  obtain ⟨e, he⟩ := exists_ok_of_mem h f hf
  obtain ⟨v, hv, -⟩ := map_eq_ok.mp he
  exact ⟨v, hv⟩

/-- The fields of an object are read exactly if each of them is, from what is under its name. -/
theorem decodeFields_eq_ok (hnames : (fields.map Prod.fst).Nodup) {entries out : List (Value × Value)} :
    decodeFields fields entries = .ok out ↔
      ∃ g, out = Value.named (fields.map Prod.fst) g ∧
        ∀ f ∈ fields, f.2.decode (Value.getD f.1 entries) = .ok (g f.1) := by
  constructor
  · intro h
    obtain ⟨g, hg⟩ := exists_forall_fields hnames (decode_of_decodeFields h)
    exact ⟨g, Except.ok.inj (h.symm.trans (decodeFields_named hg)), hg⟩
  · rintro ⟨g, rfl, hg⟩
    exact decodeFields_named hg

theorem encodeFields_named {v : Value} {g : String → Value}
    (h : ∀ f ∈ fields, f.2.encode (v.field f.1) = .ok (g f.1)) :
    encodeFields fields v = .ok (Value.named (fields.map Prod.fst) g) := by
  induction fields with
  | nil => rfl
  | cons f fields ih =>
      simp only [List.forall_mem_cons] at h
      simp only [encodeFields, h.1, ih h.2, List.map_cons, Value.named]

/-- The fields of an object are written like the items of an array. -/
theorem encodeFields_eq_collect (fields : List (String × Schema)) (v : Value) :
    encodeFields fields v =
      collect (fun f => (f.2.encode (v.field f.1)).map fun w => (.str f.1, w)) fields := by
  induction fields with
  | nil => rfl
  | cons f fields ih =>
      rw [encodeFields, collect, ih]
      generalize collect _ fields = rest
      cases f.2.encode (v.field f.1) <;> cases rest <;> rfl

/-- The fields of an object are written in order, each under its name from what the value has there. -/
theorem encode_of_encodeFields {v : Value} {out : List (Value × Value)}
    (h : encodeFields fields v = .ok out) :
    out.map Prod.fst = fields.map (fun f => .str f.1) ∧
      ∀ e ∈ out, ∃ f ∈ fields, e.1 = .str f.1 ∧ f.2.encode (v.field f.1) = .ok e.2 := by
  induction fields generalizing out with
  | nil =>
      simp only [encodeFields, Except.ok.injEq] at h
      subst h
      simp
  | cons f fields ih =>
      simp only [encodeFields] at h
      split at h
      · cases h
      · rename_i w hw
        split at h
        · cases h
        · rename_i rest hrest
          obtain ⟨hkeys, hencode⟩ := ih hrest
          cases h
          refine ⟨by rw [List.map_cons, hkeys, List.map_cons], ?_⟩
          refine List.forall_mem_cons.mpr ⟨⟨f, List.mem_cons_self, rfl, hw⟩, fun e he => ?_⟩
          have hin := hencode e he
          exact hin.imp fun f' hf' => ⟨List.mem_cons_of_mem _ hf'.1, hf'.2⟩

theorem encode_of_mem_fields {v : Value} {out : List (Value × Value)}
    (h : encodeFields fields v = .ok out) :
    ∀ f ∈ fields, ∃ w, f.2.encode (v.field f.1) = .ok w := by
  intro f hf
  rw [encodeFields_eq_collect] at h
  obtain ⟨e, he⟩ := exists_ok_of_mem h f hf
  obtain ⟨w, hw, -⟩ := map_eq_ok.mp he
  exact ⟨w, hw⟩

/-- The fields of an object are written exactly if each of them is, from what the value has under its
name. -/
theorem encodeFields_eq_ok (hnames : (fields.map Prod.fst).Nodup) {v : Value}
    {out : List (Value × Value)} :
    encodeFields fields v = .ok out ↔
      ∃ g, out = Value.named (fields.map Prod.fst) g ∧
        ∀ f ∈ fields, f.2.encode (v.field f.1) = .ok (g f.1) := by
  constructor
  · intro h
    obtain ⟨g, hg⟩ := exists_forall_fields hnames (encode_of_mem_fields h)
    exact ⟨g, Except.ok.inj (h.symm.trans (encodeFields_named hg)), hg⟩
  · rintro ⟨g, rfl, hg⟩
    exact encodeFields_named hg

/-- The positions of a tuple are read from the items at the same places, null where there is none. -/
theorem decode_of_decodePositions {positions : List Schema} {items values : List Value}
    (h : decodePositions positions items = .ok values) :
    values.length = positions.length ∧ ∀ (i : Nat) (p : Schema), positions[i]? = some p →
      p.decode (items.getD i .null) = .ok (values.getD i .null) := by
  induction positions generalizing items values with
  | nil =>
      simp only [decodePositions, Except.ok.injEq] at h
      subst h
      simp
  | cons s positions ih =>
      simp only [decodePositions] at h
      split at h
      · cases h
      · rename_i v hv
        split at h
        · cases h
        · rename_i rest hrest
          obtain ⟨hlength, hdecode⟩ := ih hrest
          cases h
          refine ⟨by simp [hlength], ?_⟩
          intro i p hp
          cases i with
          | zero =>
              obtain rfl := Option.some.inj hp
              cases items <;> simpa using hv
          | succ i =>
              have := hdecode i p (by simpa using hp)
              cases items <;> simpa using this

/-- The positions of a tuple are written from what the value has at the same places. -/
theorem encode_of_encodePositions {positions : List Schema} {start : Nat} {v : Value} {ws : List Value}
    (h : encodePositions start positions v = .ok ws) :
    ws.length = positions.length ∧ ∀ (i : Nat) (p : Schema), positions[i]? = some p →
      ∃ item, v.position (start + i) = .ok item ∧ p.encode item = .ok (ws.getD i .null) := by
  induction positions generalizing start ws with
  | nil =>
      simp only [encodePositions, Except.ok.injEq] at h
      subst h
      simp
  | cons s positions ih =>
      simp only [encodePositions] at h
      split at h
      · cases h
      · rename_i item hitem
        split at h
        · cases h
        · rename_i w hw
          split at h
          · cases h
          · rename_i rest hrest
            obtain ⟨hlength, hencode⟩ := ih hrest
            cases h
            refine ⟨by simp [hlength], ?_⟩
            intro i p hp
            cases i with
            | zero =>
                obtain rfl := Option.some.inj hp
                exact ⟨item, hitem, hw⟩
            | succ i =>
                have hnext := hencode i p (by simpa using hp)
                rw [Nat.add_assoc, Nat.add_comm 1 i] at hnext
                simpa using hnext

/-- The positions of a tuple are written like the items of an array, each by a schema of its own. -/
theorem encodePositions_eq_collect {positions : List Schema} {values : List Value}
    (hlength : values.length = positions.length) (before : List Value) :
    encodePositions before.length positions (.tuple (before ++ values)) =
      collect (fun q => q.1.encode q.2) (positions.zip values) := by
  induction positions generalizing values before with
  | nil => rfl
  | cons p positions ih =>
      cases values with
      | nil => cases hlength
      | cons t values =>
          have hposition : (Value.tuple (before ++ t :: values)).position before.length = .ok t := by
            simp [Value.position, Value.iterate?]
          have hrest := ih (Nat.succ.inj hlength) (before ++ [t])
          rw [List.length_append, List.length_singleton, List.append_assoc, List.singleton_append] at hrest
          simp only [encodePositions, hposition, hrest, List.zip_cons_cons, collect]
          generalize collect _ (positions.zip values) = rest
          cases p.encode t <;> cases rest <;> rfl

theorem branch?_cons (tag t : String) (fields : List (String × Schema))
    (branches : List (String × List (String × Schema))) :
    branch? tag ((t, fields) :: branches) = if t = tag then some fields else branch? tag branches := by
  by_cases h : t = tag
  · simp [branch?, h]
  · have hne : (tag == t) = false := beq_eq_false_iff_ne.mpr (Ne.symm h)
    simp [branch?, List.lookup_cons, h, hne]

/-- A variant is read by the fields of the first branch with the tag. -/
theorem decodeBranch_eq (tag : String) (branches : List (String × List (String × Schema)))
    (entries : List (Value × Value)) :
    decodeBranch tag branches entries =
      (branch? tag branches).map fun fields => decodeFields fields entries := by
  induction branches with
  | nil => rfl
  | cons b branches ih =>
      obtain ⟨t, fields⟩ := b
      rw [decodeBranch, branch?_cons, ih]
      split <;> rfl

theorem encodeBranch_eq (tag : String) (branches : List (String × List (String × Schema)))
    (v : Value) :
    encodeBranch tag branches v = (branch? tag branches).map fun fields => encodeFields fields v := by
  induction branches with
  | nil => rfl
  | cons b branches ih =>
      obtain ⟨t, fields⟩ := b
      rw [encodeBranch, branch?_cons, ih]
      split <;> rfl

theorem mem_of_branch? {tag : String} {branches : List (String × List (String × Schema))}
    (h : branch? tag branches = some fields) : (tag, fields) ∈ branches :=
  Named.mem_of_lookup h

theorem orNull_eq_ok {read : Value → Except Mismatch Value} {v t : Value} (h : orNull read v = .ok t) :
    t = .null ∨ read v = .ok t := by
  cases v with
  | null => exact .inl (Except.ok.inj h).symm
  | _ => exact .inr h

theorem orNull_of_ne {read : Value → Except Mismatch Value} {v : Value} (h : v ≠ .null) :
    orNull read v = read v := by
  cases v with
  | null => exact absurd rfl h
  | _ => rfl

/-! ### What each combinator reads -/

theorem decode_array_eq_ok {item : Schema} {v t : Value} :
    (array item).decode v = .ok t ↔ ∃ items values, v.items? = some items ∧
      collect item.decode items = .ok values ∧ t = .list values := by
  rw [decode]
  split
  · rename_i items hitems
    simp [map_eq_ok, hitems, @eq_comm _ t]
  · rename_i hitems
    simp [hitems]

/-- What is no map has no entries, and is read by a schema without fields only. -/
theorem decode_object {v t : Value} (h : (object fields).decode v = .ok t) :
    ∃ out, decodeFields fields v.entries = .ok out ∧ t = .map out := by
  simp only [decode] at h
  split at h
  · obtain ⟨out, hout, rfl⟩ := map_eq_ok.mp h
    exact ⟨out, hout, rfl⟩
  · split at h
    · rename_i hempty
      obtain rfl := List.isEmpty_iff.mp hempty
      cases h
      exact ⟨[], rfl, rfl⟩
    · cases h

theorem decode_tuple_eq_ok {positions : List Schema} {v t : Value} :
    (tuple positions).decode v = .ok t ↔ ∃ items values, v.items? = some items ∧
      decodePositions positions items = .ok values ∧ t = .tuple values := by
  rw [decode]
  split
  · rename_i items hitems
    simp [map_eq_ok, hitems, @eq_comm _ t]
  · rename_i hitems
    simp [hitems]

theorem decode_oneOf_eq_ok {members : List String} {v t : Value} :
    (oneOf members).decode v = .ok t ↔ ∃ s ∈ members, v = .str s ∧ t = .str s := by
  cases v with
  | str s =>
      simp only [decode]
      by_cases hmem : s ∈ members
      · simp [hmem, eq_comm]
      · simp only [if_neg hmem, reduceCtorEq, false_iff]
        rintro ⟨s', hmem', heq, -⟩
        cases heq
        exact hmem hmem'
  | _ => simp [decode]

theorem decode_variant_eq_ok {discriminant : String} {branches : List Branch} {v t : Value} :
    (variant discriminant branches).decode v = .ok t ↔ ∃ entries tag fields out, v = .map entries ∧
      Value.getD discriminant entries = .str tag ∧ branch? tag branches = some fields ∧
      decodeFields fields entries = .ok out ∧
      t = .map (Value.put (.str discriminant) (.str tag) out) := by
  constructor
  · intro h
    simp only [decode] at h
    split at h
    · rename_i entries
      split at h
      · rename_i tag htag
        rw [decodeBranch_eq] at h
        split at h
        · rename_i result hresult
          obtain ⟨fields, hfields, rfl⟩ := Option.map_eq_some_iff.mp hresult
          obtain ⟨out, hout, rfl⟩ := map_eq_ok.mp h
          exact ⟨entries, tag, fields, out, rfl, htag, hfields, hout, rfl⟩
        · cases h
      · cases h
    · cases h
  · rintro ⟨entries, tag, fields, out, rfl, htag, hfields, hout, rfl⟩
    simp only [decode, htag, decodeBranch_eq, hfields, Option.map_some, hout]
    rfl

/-- A variant writes by the first branch with the tag that the value has, and writes the tag over it. -/
theorem encode_variant_of_tag {discriminant tag : String} {branches : List Branch}
    {entries : List (Value × Value)} (htag : Value.getD discriminant entries = .str tag)
    (hfields : branch? tag branches = some fields) :
    (variant discriminant branches).encode (.map entries) = (encodeFields fields (.map entries)).map
      fun out => .map (Value.put (.str discriminant) (.str tag) out) := by
  simp only [encode, htag, encodeBranch_eq, hfields, Option.map_some]

end Schema
end Wireform
