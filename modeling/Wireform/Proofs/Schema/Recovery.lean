import Wireform.Proofs.Schema.Built
import Wireform.Proofs.Schema.Loss

/-!
# What comes back

What becomes of a value that a schema has read when it is written, and what was written is read again. The
writing fails exactly where a date is given a tag, and otherwise the same value comes back exactly if no time
slips. Each combinator has its own lemma: if the parts come back in this sense, so does the whole.
-/
namespace Wireform

/-- Every scalar but a count of seconds is read again from what it is written as. -/
theorem Scalar.read?_write {kind : Scalar} (hkind : kind ≠ .dateUnixSecs) {v t : Value}
    (h : kind.read? v = some t) : ∃ w, kind.write t = .ok w ∧ kind.read? w = some t := by
  cases kind with
  | string =>
      cases v with
      | str s => exact ⟨t, rfl, Option.some.inj h ▸ rfl⟩
      | _ => cases h
  | boolean =>
      cases v with
      | bool b => exact ⟨t, rfl, Option.some.inj h ▸ rfl⟩
      | _ => cases h
  | integer =>
      obtain ⟨n, -, rfl⟩ := Option.map_eq_some_iff.mp h
      exact ⟨.int n, rfl, rfl⟩
  | float =>
      obtain ⟨x, hx, rfl⟩ := Option.map_eq_some_iff.mp h
      refine ⟨.float x, rfl, ?_⟩
      simp [read?, Value.toDouble?, Value.isNaN_of_toDouble? hx]
  | dateUnixSecs => exact absurd rfl hkind
  | dateUnixMillis =>
      obtain ⟨u, hu, rfl⟩ := Option.map_eq_some_iff.mp h
      obtain ⟨millis, hmillis⟩ := Value.exists_ofMillis?_of_millis hu
      exact ⟨.int u.millis, rfl, by rw [read?, Value.millisToDateTime?_millis hmillis, Option.map_some]⟩
  | dateIso =>
      obtain ⟨u, hu, rfl⟩ := Option.map_eq_some_iff.mp h
      obtain ⟨text, htext, hread⟩ := Value.isoToDateTime?_text (Value.wholeMillis_of_iso hu)
      exact ⟨.str text, by simp only [write, htext], by rw [read?, hread, Option.map_some]⟩
  | raw => exact ⟨t, rfl, rfl⟩
  | nothing => exact ⟨.str "", rfl, h⟩

/-- `Ends x C P`: where `C` holds, the writing `x` fails at a date that is given something else than a time,
and otherwise it has a result with the property `P`. -/
structure Ends {α : Type} (x : Except EncodeFault α) (C : Prop) (P : α → Prop) : Prop where
  fails : C → x = .error .notDateTime
  succeeds : ¬ C → ∃ a, x = .ok a ∧ P a

namespace Ends

variable {α β : Type} {x : Except EncodeFault α} {C D : Prop} {P : α → Prop} {Q : β → Prop}

theorem of_ok {a : α} (hC : ¬ C) (ha : P a) : Ends (.ok a) C P :=
  ⟨fun h => absurd h hC, fun _ => ⟨a, rfl, ha⟩⟩

theorem imp {R : α → Prop} (h : Ends x C P) (hC : C ↔ D) (hP : ∀ a, P a → R a) : Ends x D R where
  fails hD := h.fails (hC.mpr hD)
  succeeds hD := (h.succeeds fun hC' => hD (hC.mp hC')).imp fun a ha => ⟨ha.1, hP a ha.2⟩

theorem congr (h : Ends x C P) (hC : C ↔ D) : Ends x D P :=
  h.imp hC fun _ ha => ha

theorem map {f : α → β} (h : Ends x C P) (hf : ∀ a, P a → Q (f a)) : Ends (x.map f) C Q where
  fails hC := by
    rw [h.fails hC]
    rfl
  succeeds hC := by
    obtain ⟨a, rfl, ha⟩ := h.succeeds hC
    exact ⟨f a, rfl, hf a ha⟩

theorem bind {f : α → Except EncodeFault β} (h : Ends x C P) (hf : ∀ a, P a → Ends (f a) D Q) :
    Ends (x >>= f) (C ∨ D) Q where
  fails hCD := by
    by_cases hC : C
    · rw [h.fails hC]
      rfl
    · obtain ⟨a, rfl, ha⟩ := h.succeeds hC
      exact (hf a ha).fails (hCD.resolve_left hC)
  succeeds hCD := by
    obtain ⟨a, rfl, ha⟩ := h.succeeds fun hC => hCD (.inl hC)
    exact (hf a ha).succeeds fun hD => hCD (.inr hD)

/-- Writing items one after the other ends as the first of them does that fails. -/
theorem collect {f : α → Except EncodeFault β} {as : List α} {C : α → Prop} {P : α → β → Prop}
    (h : ∀ a ∈ as, Ends (f a) (C a) (P a)) :
    Ends (Wireform.collect f as) (∃ a ∈ as, C a) (List.Forall₂ P as) := by
  induction as with
  | nil => exact of_ok (by simp) .nil
  | cons a as ih =>
      simp only [List.forall_mem_cons] at h
      rw [collect_cons]
      refine (h.1.bind fun b hb => (ih h.2).map fun bs hbs => ?_).congr (by simp)
      exact .cons hb hbs

end Ends

namespace Schema

/-- Writing `t` fails where a date stands in the place of a tag. What is written otherwise is read again, as
`t` unless a time slips. -/
def Recovers (s : Schema) (t : Value) : Prop :=
  Ends (s.encode t) (s.Somewhere Clashes t) fun w =>
    ∃ t', s.decode w = .ok t' ∧ (t' = t ↔ ¬ s.Somewhere Slips t)

theorem recovers_scalar {kind : Scalar} {v t : Value} (h : kind.read? v = some t) :
    (Schema.scalar kind).Recovers t := by
  rw [Recovers, somewhere_scalar, somewhere_scalar, encode]
  by_cases hkind : kind = .dateUnixSecs
  · subst hkind
    obtain ⟨u, hu, rfl⟩ := Option.map_eq_some_iff.mp h
    obtain ⟨millis, hmillis⟩ := Value.exists_ofMillis?_of_seconds hu
    obtain ⟨u', hagain, -, hsame⟩ := Value.exists_secondsToDateTime?_seconds hmillis
    obtain rfl := DateTime.millis_of_ofMillis? hmillis
    refine .of_ok not_clashes_scalar ⟨.datetime u', decode_seconds_eq_ok.mpr hagain, ?_⟩
    rw [Value.datetime.injEq, hsame, slips_seconds]
  · obtain ⟨w, hw, hread⟩ := Scalar.read?_write hkind h
    rw [hw]
    refine .of_ok not_clashes_scalar ⟨t, by simp only [decode, hread], iff_of_true rfl fun hslips => ?_⟩
    cases hslips
    exact hkind rfl

/-- Only null is written as null. -/
theorem eq_null_of_encode : ∀ (s : Schema) {t : Value}, s.encode t = .ok .null → t = .null
  | .scalar kind, t, h => by
      simp only [encode] at h
      cases kind with
      | dateUnixSecs | dateUnixMillis => cases t <;> cases h
      | dateIso =>
          simp only [Scalar.write] at h
          split at h
          · split at h <;> cases h
          · cases h
      | nothing => cases h
      | _ => exact Except.ok.inj h
  | .optional inner, t, h | .nullable inner, t, h => by
      cases t with
      | null => rfl
      | _ => exact eq_null_of_encode inner h
  | .array item, t, h => by
      simp only [encode] at h
      split at h
      · obtain ⟨_, -, hnull⟩ := map_eq_ok.mp h
        cases hnull
      · cases h
  | .object fields, t, h | .tuple positions, t, h => by
      obtain ⟨_, -, hnull⟩ := map_eq_ok.mp h
      cases hnull
  | .oneOf members, t, h => Except.ok.inj h
  | .variant discriminant branches, t, h => by
      simp only [encode] at h
      split at h
      · split at h
        · split at h
          · obtain ⟨_, -, hnull⟩ := map_eq_ok.mp h
            cases hnull
          · cases h
        · cases h
      · cases h

/-- A value that may be null comes back as it does where it is not null. -/
theorem ends_orNull {inner : Schema} {t : Value} (h : t = .null ∨ inner.Recovers t) :
    Ends (nullOr inner.encode t) (t ≠ .null ∧ inner.Somewhere Clashes t) fun w =>
      ∃ t', orNull inner.decode w = .ok t' ∧ (t' = t ↔ ¬ (t ≠ .null ∧ inner.Somewhere Slips t)) := by
  by_cases hnull : t = .null
  · subst hnull
    exact .of_ok (by simp) ⟨.null, rfl, by simp⟩
  · have hinner := h.resolve_left hnull
    have hwrite : nullOr inner.encode t = inner.encode t := by
      cases t <;> first | rfl | exact absurd rfl hnull
    refine ⟨fun hC => hwrite.trans (hinner.fails hC.2), fun hC => ?_⟩
    obtain ⟨w, hw, t', ht', hsame⟩ := hinner.succeeds fun h => hC ⟨hnull, h⟩
    have hne : w ≠ .null := fun heq => hnull (eq_null_of_encode inner (heq ▸ hw))
    exact ⟨w, hwrite.trans hw, t', (orNull_of_ne hne).trans ht', by simp [hsame, hnull]⟩

/-- What items are written as is read again item by item. -/
theorem exists_collect {item : Schema} {S : Value → Prop} {values ws : List Value}
    (h : List.Forall₂ (fun t w => ∃ t', item.decode w = .ok t' ∧ (t' = t ↔ ¬ S t)) values ws) :
    ∃ values', Wireform.collect item.decode ws = .ok values' ∧
      (values' = values ↔ ¬ ∃ t ∈ values, S t) := by
  induction h with
  | nil => exact ⟨[], rfl, by simp⟩
  | cons hw _ ih =>
      obtain ⟨t', ht', hsame⟩ := hw
      obtain ⟨values', hvalues', hall⟩ := ih
      refine ⟨t' :: values', by simp only [Wireform.collect, ht', hvalues'], ?_⟩
      rw [List.cons.injEq, hsame, hall]
      simp

theorem recovers_array {item : Schema} {values : List Value} (h : ∀ t ∈ values, item.Recovers t) :
    (Schema.array item).Recovers (.list values) := by
  have hitems := (Ends.collect h).congr somewhere_array.symm
  refine hitems.map fun ws hws => ?_
  obtain ⟨values', hvalues', hsame⟩ := exists_collect hws
  refine ⟨.list values', decode_array_eq_ok.mpr ⟨ws, values', rfl, hvalues', rfl⟩, ?_⟩
  rw [Value.list.injEq, hsame, somewhere_array]

theorem exists_decodePositions {positions : List Schema} {values ws : List Value}
    {S : Schema × Value → Prop} (hlength : values.length = positions.length)
    (h : List.Forall₂ (fun q w => ∃ t', q.1.decode w = .ok t' ∧ (t' = q.2 ↔ ¬ S q))
      (positions.zip values) ws) :
    ∃ values', decodePositions positions ws = .ok values' ∧
      (values' = values ↔ ¬ ∃ q ∈ positions.zip values, S q) := by
  induction positions generalizing values ws with
  | nil =>
      obtain rfl := List.length_eq_zero_iff.mp hlength
      exact ⟨[], rfl, by simp⟩
  | cons p positions ih =>
      cases values with
      | nil => cases hlength
      | cons t values =>
          rw [List.zip_cons_cons] at h ⊢
          obtain ⟨w, ws, ⟨t', ht', hsame⟩, hws, rfl⟩ := List.forall₂_cons_left_iff.mp h
          obtain ⟨values', hvalues', hall⟩ := ih (Nat.succ.inj hlength) hws
          have hread : decodePositions (p :: positions) (w :: ws) = .ok (t' :: values') := by
            simp only [decodePositions, List.headD_cons, List.tail_cons, ht', hvalues']
          refine ⟨t' :: values', hread, ?_⟩
          rw [List.cons.injEq, hsame, hall]
          simp

theorem recovers_tuple {positions : List Schema} {values : List Value}
    (hlength : values.length = positions.length)
    (h : ∀ q ∈ positions.zip values, q.1.Recovers q.2) :
    (Schema.tuple positions).Recovers (.tuple values) := by
  have hwrite := (Ends.collect h).congr somewhere_tuple.symm
  rw [Recovers, encode, ← List.nil_append values, ← List.length_nil (α := Value),
    encodePositions_eq_collect hlength]
  refine hwrite.map fun ws hws => ?_
  obtain ⟨values', hvalues', hsame⟩ := exists_decodePositions hlength hws
  refine ⟨.tuple values', decode_tuple_eq_ok.mpr ⟨ws, values', rfl, hvalues', rfl⟩, ?_⟩
  rw [List.nil_append, Value.tuple.injEq, hsame, somewhere_tuple]

section

variable {fields : List (String × Schema)}

/-- The fields are written together if each of them is, under their names. -/
theorem ends_fields (hnames : (fields.map Prod.fst).Nodup) {v : Value} {C : String × Schema → Prop}
    {P : String × Schema → Value → Prop}
    (h : ∀ f ∈ fields, Ends (f.2.encode (v.field f.1)) (C f) (P f)) :
    Ends (encodeFields fields v) (∃ f ∈ fields, C f) fun out =>
      ∃ k, out = Value.named (fields.map Prod.fst) k ∧ ∀ f ∈ fields, P f (k f.1) where
  fails hC := by
    rw [encodeFields_eq_collect]
    exact (Ends.collect fun f hf => (h f hf).map (Q := fun _ => True) fun _ _ => trivial).fails hC
  succeeds hC := by
    obtain ⟨k, hk⟩ := exists_forall_fields hnames fun f hf => (h f hf).succeeds fun hCf => hC ⟨f, hf, hCf⟩
    exact ⟨_, encodeFields_named fun f hf => (hk f hf).1, k, rfl, fun f hf => (hk f hf).2⟩

/-- The fields are read together if each of them is. -/
theorem exists_decodeFields (hnames : (fields.map Prod.fst).Nodup) {entries : List (Value × Value)}
    {P : String × Schema → Value → Prop}
    (h : ∀ f ∈ fields, ∃ t, f.2.decode (Value.getD f.1 entries) = .ok t ∧ P f t) :
    ∃ g, decodeFields fields entries = .ok (Value.named (fields.map Prod.fst) g) ∧
      ∀ f ∈ fields, P f (g f.1) := by
  obtain ⟨g, hg⟩ := exists_forall_fields hnames h
  exact ⟨g, decodeFields_named fun f hf => (hg f hf).1, fun f hf => (hg f hf).2⟩

theorem recovers_object (hnames : (fields.map Prod.fst).Nodup) {g : String → Value}
    (h : ∀ f ∈ fields, f.2.Recovers (g f.1)) :
    (Schema.object fields).Recovers (.map (Value.named (fields.map Prod.fst) g)) := by
  have hunder (k : String → Value) : ∀ f ∈ fields,
      Value.getD f.1 (Value.named (fields.map Prod.fst) k) = k f.1 := fun f hf =>
    Value.getD_named (List.mem_map_of_mem hf) k
  generalize ht : Value.map (Value.named (fields.map Prod.fst) g) = t
  have hfield : ∀ f ∈ fields, t.field f.1 = g f.1 := fun f hf => ht ▸ hunder g f hf
  have hwrite := ends_fields hnames fun f hf => show f.2.Recovers (t.field f.1) from hfield f hf ▸ h f hf
  refine (hwrite.congr somewhere_object.symm).map ?_
  rintro out ⟨k, rfl, hk⟩
  obtain ⟨g', hdecode, hsame⟩ := exists_decodeFields hnames fun f hf => (hunder k f hf).symm ▸ hk f hf
  refine ⟨.map (Value.named (fields.map Prod.fst) g'), by rw [decode, hdecode]; rfl, ?_⟩
  rw [← ht, Value.map.injEq, Value.named_inj, ht, List.forall_mem_map, somewhere_object]
  simp only [not_exists, not_and]
  exact forall₂_congr fun f hf => by rw [← hfield f hf, hsame f hf]

/-- A schema that reads a tag writes it as something, unless it is a date. -/
theorem ends_tag {tag : String} : ∀ (s : Schema) {t : Value}, s.decode (.str tag) = .ok t →
    Ends (s.encode (.str tag)) s.ofDate fun _ => True
  | .scalar kind, t, h => by
      cases kind with
      | dateUnixSecs | dateUnixMillis | dateIso => exact ⟨fun _ => rfl, fun h => absurd rfl h⟩
      | _ => exact .of_ok Bool.false_ne_true trivial
  | .optional inner, t, h | .nullable inner, t, h => ends_tag inner h
  | .array item, t, h | .tuple positions, t, h | .variant discriminant branches, t, h => by cases h
  | .object fields, t, h => by
      simp only [decode] at h
      split at h
      · rename_i hempty
        obtain rfl := List.isEmpty_iff.mp hempty
        exact .of_ok Bool.false_ne_true trivial
      · cases h
  | .oneOf members, t, h => .of_ok Bool.false_ne_true trivial

/-- The fields of a branch are written from what the value has there, the one with the name of the
discriminant from the tag. -/
theorem ends_branch {discriminant tag : String} (hnames : (fields.map Prod.fst).Nodup) {t : Value}
    (hdiscriminant : t.field discriminant = .str tag)
    (htag : ∀ f ∈ fields, f.1 = discriminant → ∃ u, f.2.decode (.str tag) = .ok u)
    (h : ∀ f ∈ fields, f.1 ≠ discriminant → f.2.Recovers (t.field f.1)) :
    Ends (encodeFields fields t)
      (∃ f ∈ fields, f.1 = discriminant ∧ f.2.ofDate ∨
        f.1 ≠ discriminant ∧ f.2.Somewhere Clashes (t.field f.1))
      fun out => ∃ k, out = Value.named (fields.map Prod.fst) k ∧ ∀ f ∈ fields, f.1 ≠ discriminant →
        ∃ t', f.2.decode (k f.1) = .ok t' ∧ (t' = t.field f.1 ↔ ¬ f.2.Somewhere Slips (t.field f.1)) := by
  refine ends_fields hnames (P := fun f w => f.1 ≠ discriminant → ∃ t', f.2.decode w = .ok t' ∧
    (t' = t.field f.1 ↔ ¬ f.2.Somewhere Slips (t.field f.1))) fun f hf => ?_
  by_cases hd : f.1 = discriminant
  · obtain ⟨u, hu⟩ := htag f hf hd
    rw [hd, hdiscriminant]
    exact (ends_tag f.2 hu).imp (by simp) fun _ _ hne => absurd rfl hne
  · exact (h f hf hd).imp (by simp [hd]) fun _ hw _ => hw

/-- The tag hides no field but the one with the name of the discriminant. -/
theorem getD_put_named {f : String × Schema} (hf : f ∈ fields) {discriminant : String}
    (hne : f.1 ≠ discriminant) {tag : String} (g : String → Value) :
    Value.getD f.1 (Value.put (.str discriminant) (.str tag) (Value.named (fields.map Prod.fst) g)) =
      g f.1 := by
  rw [Value.getD_put_of_ne hne, Value.getD_named (List.mem_map_of_mem hf)]

/-- Beside the tag the fields of a branch are read as they would be without it, and the one with the name of
the discriminant is read from the tag again. -/
theorem exists_decode_branch {discriminant tag : String} (hnames : (fields.map Prod.fst).Nodup)
    {g k : String → Value} {S : String × Schema → Prop}
    (htag : ∀ f ∈ fields, f.1 = discriminant → f.2.decode (.str tag) = .ok (g f.1))
    (hk : ∀ f ∈ fields, f.1 ≠ discriminant →
      ∃ t', f.2.decode (k f.1) = .ok t' ∧ (t' = g f.1 ↔ ¬ S f)) :
    ∃ g', decodeFields fields
        (Value.put (.str discriminant) (.str tag) (Value.named (fields.map Prod.fst) k)) =
          .ok (Value.named (fields.map Prod.fst) g') ∧
      (Value.put (.str discriminant) (.str tag) (Value.named (fields.map Prod.fst) g') =
          Value.put (.str discriminant) (.str tag) (Value.named (fields.map Prod.fst) g) ↔
        ¬ ∃ f ∈ fields, f.1 ≠ discriminant ∧ S f) := by
  have hread : ∀ f ∈ fields, ∃ t', f.2.decode (Value.getD f.1
      (Value.put (.str discriminant) (.str tag) (Value.named (fields.map Prod.fst) k))) = .ok t' ∧
        (t' = g f.1 ↔ ¬ (f.1 ≠ discriminant ∧ S f)) := by
    intro f hf
    by_cases hd : f.1 = discriminant
    · rw [hd, Value.getD_put_self, ← hd]
      exact ⟨g f.1, htag f hf hd, by simp [hd]⟩
    · rw [getD_put_named hf hd]
      exact (hk f hf hd).imp fun t' ht' => by simpa [hd] using ht'
  obtain ⟨g', hdecode, hsame⟩ := exists_decodeFields hnames hread
  refine ⟨g', hdecode, fun heq => ?_, fun hnone => ?_⟩
  · rintro ⟨f, hf, hS⟩
    refine (hsame f hf).mp ?_ hS
    rw [← getD_put_named hf hS.1 g', heq, getD_put_named hf hS.1]
  · have hall : ∀ f ∈ fields, g' f.1 = g f.1 := fun f hf =>
      (hsame f hf).mpr fun hS => hnone ⟨f, hf, hS⟩
    rw [Value.named_inj.mpr (List.forall_mem_map.mpr hall)]

/-- So a variant gives back the fields of the branch. -/
theorem recovers_variant {discriminant tag : String} {branches : List Branch}
    (hfields : branch? tag branches = some fields) (hnames : (fields.map Prod.fst).Nodup)
    {g : String → Value}
    (htag : ∀ f ∈ fields, f.1 = discriminant → f.2.decode (.str tag) = .ok (g f.1))
    (h : ∀ f ∈ fields, f.1 ≠ discriminant → f.2.Recovers (g f.1)) :
    (Schema.variant discriminant branches).Recovers
      (.map (Value.put (.str discriminant) (.str tag) (Value.named (fields.map Prod.fst) g))) := by
  rw [Recovers, encode_variant_of_tag (Value.getD_put_self ..) hfields]
  generalize ht : Value.map
    (Value.put (.str discriminant) (.str tag) (Value.named (fields.map Prod.fst) g)) = t
  have hdiscriminant : t.field discriminant = .str tag := ht ▸ Value.getD_put_self ..
  have hfield : ∀ f ∈ fields, f.1 ≠ discriminant → t.field f.1 = g f.1 := fun f hf hne =>
    ht ▸ getD_put_named hf hne g
  have hwrite := ends_branch hnames hdiscriminant (fun f hf hd => ⟨_, htag f hf hd⟩) fun f hf hne =>
    (hfield f hf hne).symm ▸ h f hf hne
  have hclash : (Schema.variant discriminant branches).Somewhere Clashes t ↔ _ :=
    (somewhere_variant hdiscriminant hfields).trans (or_congr_left (clashes_variant hdiscriminant hfields))
  rw [hclash]
  refine (hwrite.congr (by simp only [and_or_left, exists_or])).map ?_
  rintro out ⟨k, rfl, hk⟩
  obtain ⟨g', hdecode, hsame⟩ := exists_decode_branch hnames (k := k) htag
    (S := fun f => f.2.Somewhere Slips (t.field f.1)) fun f hf hne => by
      rw [← hfield f hf hne]
      exact hk f hf hne
  refine ⟨_, decode_variant_eq_ok.mpr
    ⟨_, tag, fields, _, rfl, Value.getD_put_self .., hfields, hdecode, rfl⟩, ?_⟩
  rw [somewhere_variant hdiscriminant hfields, or_iff_right not_slips_variant, ← hsame, ← ht, Value.map.injEq]

end

/-- Whatever a schema reads comes back, unless a date stands in the place of a tag or a time slips. -/
theorem Built.recovers {s : Schema} (hs : s.Built) {v t : Value} (h : s.decode v = .ok t) :
    s.Recovers t := by
  induction hs generalizing v t with
  | scalar kind =>
      simp only [decode] at h
      split at h
      · rename_i u hu
        cases h
        exact recovers_scalar hu
      · cases h
  | optional _ ih =>
      have hinner := ends_orNull ((orNull_eq_ok h).imp_right ih)
      rw [Recovers, somewhere_optional, somewhere_optional]
      exact hinner
  | nullable _ ih =>
      have hinner := ends_orNull ((orNull_eq_ok h).imp_right ih)
      rw [Recovers, somewhere_nullable, somewhere_nullable]
      exact hinner
  | array _ ih =>
      obtain ⟨items, values, -, hvalues, rfl⟩ := decode_array_eq_ok.mp h
      refine recovers_array fun t ht => ?_
      obtain ⟨v, hv⟩ := exists_of_mem_collect hvalues t ht
      exact ih hv
  | object hnames _ ih =>
      obtain ⟨out, hout, rfl⟩ := decode_object h
      obtain ⟨g, rfl, hg⟩ := (decodeFields_eq_ok hnames).mp hout
      exact recovers_object hnames fun f hf => ih f hf (hg f hf)
  | tuple _ ih =>
      obtain ⟨items, values, -, hvalues, rfl⟩ := decode_tuple_eq_ok.mp h
      obtain ⟨hlength, hdecode⟩ := decode_of_decodePositions hvalues
      refine recovers_tuple hlength fun q hq => ?_
      obtain ⟨i, hi⟩ := List.mem_iff_getElem?.mp hq
      obtain ⟨hp, ht⟩ := List.getElem?_zip_eq_some.mp hi
      have hread := hdecode i q.1 hp
      rw [List.getD_eq_getElem?_getD (l := values), ht] at hread
      exact ih q.1 (List.mem_of_getElem? hp) hread
  | oneOf members =>
      obtain ⟨s, hmem, rfl, rfl⟩ := decode_oneOf_eq_ok.mp h
      exact .of_ok not_somewhere_oneOf ⟨.str s, h, iff_of_true rfl not_somewhere_oneOf⟩
  | variant _ hnames _ ih =>
      obtain ⟨entries, tag, fields, out, rfl, htag, hfields, hout, rfl⟩ := decode_variant_eq_ok.mp h
      have hmem := mem_of_branch? hfields
      obtain ⟨g, rfl, hg⟩ := (decodeFields_eq_ok (hnames _ hmem)).mp hout
      refine recovers_variant hfields (hnames _ hmem) (fun f hf hd => ?_) fun f hf _ => ?_
      · have hread := hg f hf
        rwa [hd, htag, ← hd] at hread
      · exact ih _ hmem f hf (hg f hf)

/-- A value that a variant has read comes back, whatever fields the branches declare, with two exceptions. The
writing fails where the branch of a tag declares the discriminant as a date; and a time that slips comes back
as another one. -/
theorem encode_decode_variant {e : Expr} {discriminant : String} {branches : List Branch} {v t : Value}
    (hs : e.schema.1 = .ok (variant discriminant branches))
    (ht : (variant discriminant branches).decode v = .ok t) :
    ((variant discriminant branches).Somewhere Clashes t →
      (variant discriminant branches).encode t = .error .notDateTime) ∧
    (¬ (variant discriminant branches).Somewhere Clashes t →
      ∃ w t', (variant discriminant branches).encode t = .ok w ∧
        (variant discriminant branches).decode w = .ok t' ∧
        (t' = t ↔ ¬ (variant discriminant branches).Somewhere Slips t)) := by
  have hrecovers := (Expr.built_of_schema hs).recovers ht
  refine ⟨hrecovers.fails, fun hclash => ?_⟩
  obtain ⟨w, hw, t', ht', hsame⟩ := hrecovers.succeeds hclash
  exact ⟨w, t', hw, ht', hsame⟩

/-- Objects numbered 0, with the number declared among their fields. -/
def numbered (number : Scalar) : Schema :=
  variant "type" [("0", [("type", .scalar number)])]

def numberedExpr (number : Scalar) : Expr :=
  .variantOf "type" (.list
    [.tuple [.value (.str "0"), .schema (.object (.map [(.str "type", .schema (.scalar number))]))]])

def numberZero : Value :=
  .map [(.str "type", .str "0")]

/-- As an integer the number is written from the text that replaces it. -/
theorem encode_decode_numbered : ∃ w, (numbered .integer).encode numberZero = .ok w ∧
    (numbered .integer).decode w = .ok numberZero := by
  have hcases := encode_decode_variant (e := numberedExpr .integer) (v := numberZero) (t := numberZero)
    rfl rfl
  have htag : numberZero.field "type" = .str "0" := rfl
  have hnothing {P : Schema → Value → Prop} (h : ¬ P (numbered .integer) numberZero) :
      ¬ (numbered .integer).Somewhere P numberZero := by
    intro hsomewhere
    obtain hhere | ⟨f, hf, hne, -⟩ := (somewhere_variant htag rfl).mp hsomewhere
    · exact h hhere
    · obtain rfl := List.mem_singleton.mp hf
      exact hne rfl
  have hclash : ¬ Clashes (numbered .integer) numberZero := by
    rw [numbered, clashes_variant htag rfl]
    simp [ofDate]
  obtain ⟨w, t', hw, ht', hsame⟩ := hcases.2 (hnothing hclash)
  exact ⟨w, hw, hsame.mpr (hnothing not_slips_variant) ▸ ht'⟩

/-- As a date it is not written. -/
theorem numbered_not_written :
    (numberedExpr .dateUnixMillis).schema.1 = .ok (numbered .dateUnixMillis) ∧
      (numbered .dateUnixMillis).decode numberZero = .ok numberZero ∧
      (numbered .dateUnixMillis).encode numberZero = .error .notDateTime := by
  refine ⟨rfl, decode_variant_eq_ok.mpr ?_, rfl⟩
  obtain ⟨u, hu⟩ := Option.isSome_iff_exists.mp
    (show (Value.str "0").millisToDateTime?.isSome by decide +kernel)
  refine ⟨_, "0", [("type", scalar .dateUnixMillis)], [(.str "type", .datetime u)], rfl, rfl, rfl, ?_, rfl⟩
  have hread : (scalar .dateUnixMillis).decode (.str "0") = .ok (.datetime u) := by
    simp only [decode, Scalar.read?, hu, Option.map_some]
  exact decodeFields_named (g := fun _ => .datetime u) (List.forall_mem_singleton.mpr hread)

end Schema
end Wireform
