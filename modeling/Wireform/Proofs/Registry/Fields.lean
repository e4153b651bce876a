import Wireform.Proofs.Registry.Expansion

/-!
# Declared fields

Every entry of the fields of an object declares a field, under the text of its key and with the schema of its
definition. All fields that are declared are fields of the object exactly if no two keys have the same text.
Otherwise a name has its first place and the schema that was declared last, and the schemas that were declared
before are lost.
-/
namespace Wireform.Registry

/-- `Contains d part`: the definition `part` is `d`, or stands in the place of a definition inside it. -/
inductive Contains : Value → Value → Prop
  | self (d : Value) : Contains d d
  | part {c : Combinator} {argument d part : Value} : d ∈ parts c argument → Contains d part →
      Contains (combined c argument) part

variable {definitions : List (String × Value)}

/-- Whatever stands inside a definition with a meaning has one. -/
theorem Contains.exists_denotes {d part : Value} (h : Contains d part) :
    ∀ {s}, Denotes definitions d s → ∃ t, Denotes definitions part t := by
  induction h with
  | self d => exact fun hs => ⟨_, hs⟩
  | part hpart _ ih =>
      intro s hs
      obtain ⟨ss, hparts, -⟩ := denotes_combined.mp hs
      obtain ⟨t, -, ht⟩ := exists_of_forall₂ hparts _ hpart
      exact ih ht

/-- The schema of a field, given the one of its definition. -/
def fieldSchema (c : Combinator) (s : Schema) : Schema :=
  if c = .partialObject then .optional s else s

/-- `Declares definitions c e f`: the entry `e` of an object declares the field `f`. -/
def Declares (definitions : List (String × Value)) (c : Combinator) (e : Value × Value)
    (f : String × Schema) : Prop :=
  e.1.text? = some f.1 ∧ ∃ s, Denotes definitions e.2 s ∧ f.2 = fieldSchema c s

theorem Declares.unique {c : Combinator} {e : Value × Value} {f g : String × Schema}
    (hf : Declares definitions c e f) (hg : Declares definitions c e g) : f = g := by
  obtain ⟨hfname, s, hs, hfs⟩ := hf
  obtain ⟨hgname, t, ht, hgt⟩ := hg
  exact Prod.ext (Option.some.inj (hfname.symm.trans hgname)) (by rw [hfs, hgt, hs.unique ht])

section

variable {c : Combinator} {entries : List (Value × Value)} {fields : List (String × Schema)}

theorem declares_of_forall₂ (hnames : entries.map (fun e => e.1.text?) = fields.map (fun f => some f.1))
    (h : List.Forall₂ (Denotes definitions) (entries.map Prod.snd) (fields.map Prod.snd)) :
    List.Forall₂ (Declares definitions c) entries (fields.map fun f => (f.1, fieldSchema c f.2)) := by
  induction entries generalizing fields with
  | nil =>
      obtain rfl := List.map_eq_nil_iff.mp hnames.symm
      exact .nil
  | cons e entries ih =>
      obtain ⟨f, fields, rfl, hname, hnames⟩ := List.map_eq_cons_iff.mp hnames.symm
      rw [List.map_cons, List.map_cons, List.forall₂_cons] at h
      exact .cons ⟨hname.symm, f.2, h.1, rfl⟩ (ih hnames.symm h.2)

/-- What an object denotes: of the fields that its entries declare, those with the same name made one. -/
theorem exists_declares (hc : c = .object ∨ c = .partialObject) {s : Schema}
    (h : Denotes definitions (combined c (.map entries)) s) :
    ∃ fields, List.Forall₂ (Declares definitions c) entries fields ∧ s = .object (Named.distinct fields) := by
  obtain ⟨ss, hparts, hassembles⟩ := denotes_combined.mp h
  rcases hc with rfl | rfl
  · cases hassembles with
    | @object _ fields hnames =>
        refine ⟨_, declares_of_forall₂ hnames hparts, ?_⟩
        simp [fieldSchema]
  · cases hassembles with
    | @partialObject _ fields hnames =>
        refine ⟨_, declares_of_forall₂ hnames hparts, ?_⟩
        rw [Named.distinct_map, Schema.partialObject]
        rfl

theorem texts_of_declares (h : List.Forall₂ (Declares definitions c) entries fields) :
    entries.map (fun e => e.1.text?) = (fields.map Prod.fst).map some := by
  induction h with
  | nil => rfl
  | cons hdeclares _ ih => rw [List.map_cons, List.map_cons, List.map_cons, hdeclares.1, ih]

end

/-- Every definition of a document that is loaded has a meaning. -/
theorem exists_denotes_of_loaded {maxDepth : Option Int} {document : Value} {r : Registry}
    (hread : readDefinitions document = .ok definitions) (h : (ofDocument maxDepth document).1 = .ok r) :
    ∀ d ∈ definitions, ∃ s, Denotes definitions d.2 s := by
  intro d hd
  obtain ⟨_, hread', hload, -, hkeys, hall⟩ := of_ofDocument h
  rw [hread] at hread'
  cases hread'
  have hname : d.1 ∈ r.names := hkeys ▸ List.mem_map_of_mem hd
  obtain ⟨s, hs⟩ := Named.exists_lookup hname
  cases hall _ (Named.mem_of_lookup hs) with
  | scalar hkind =>
      rw [hload.scalars d hd] at hkind
      cases hkind
  | reference _ hlookup hdenotes =>
      rw [(Named.lookup_eq_some_iff_mem (nodup_of_readDefinitions hread)).mpr hd] at hlookup
      cases hlookup
      exact ⟨s, hdenotes⟩

/-- In a registry that was loaded, the schema of every object has the fields that its entries declare, one for
each entry and in their order, if and only if no two keys have the same text. In any case it has one field for
each text, where a key with that text comes first, and with the schema of the entry where it comes last. -/
theorem fields_of_loaded {maxDepth : Option Int} {document : Value} {r : Registry}
    (h : (ofDocument maxDepth document).1 = .ok r) :
    ∃ definitions, readDefinitions document = .ok definitions ∧
      (∀ name s, r.get? name = some s ↔
        name ∈ definitions.map Prod.fst ∧ Denotes definitions (.str name) s) ∧
      ∀ d ∈ definitions, ∀ (c : Combinator) (entries : List (Value × Value)),
        c = .object ∨ c = .partialObject → Contains d.2 (combined c (.map entries)) →
        ∃ fields kept, List.Forall₂ (Declares definitions c) entries fields ∧
          (∀ s, Denotes definitions (combined c (.map entries)) s ↔ s = .object kept) ∧
          (kept = fields ↔ (entries.map fun e => e.1.text?).Nodup) ∧
          kept.map Prod.fst = (fields.map Prod.fst).eraseDups ∧
          ∀ name, kept.lookup name = fields.reverse.lookup name := by
  obtain ⟨definitions, hread, -⟩ := of_ofDocument h
  refine ⟨definitions, hread, fun name s => get?_eq_some_iff hread h, ?_⟩
  intro d hd c entries hc hcontains
  obtain ⟨s, hs⟩ := exists_denotes_of_loaded hread h d hd
  obtain ⟨t, ht⟩ := hcontains.exists_denotes hs
  obtain ⟨fields, hfields, rfl⟩ := exists_declares hc ht
  refine ⟨fields, Named.distinct fields, hfields, fun s => ⟨fun hs => hs.unique ht, fun hs => hs ▸ ht⟩, ?_,
    Named.keys_distinct fields, fun name => Named.lookup_distinct name fields⟩
  rw [Named.distinct_eq_self, texts_of_declares hfields, List.nodup_map_iff fun _ _ => Option.some.inj]

/-- The entries of an object with a number and its text as keys. -/
def numberedEntries : List (Value × Value) :=
  [(.int 1, .str "integer"), (.str "unit", .str "string"), (.str "1", .str "boolean")]

/-- The object with these entries, and one that refers to it. -/
def numbered : List (String × Value) :=
  [("move", combined .partialObject (.map [(.str "by", .str "step"), (.int 2, .str "float")])),
    ("step", combined .object (.map numberedEntries))]

theorem load_numbered : ∃ r, (ofDocument none (document numbered)).1 = .ok r :=
  exists_of_isOk (by decide +kernel)

theorem readDefinitions_numbered : readDefinitions (document numbered) = .ok numbered :=
  readDefinitions_document (by decide)

theorem declares_numberedEntries {fields : List (String × Schema)}
    (h : List.Forall₂ (Declares numbered .object) numberedEntries fields) :
    fields = [("1", .scalar .integer), ("unit", .scalar .string), ("1", .scalar .boolean)] := by
  have hunique : Relator.RightUnique (Declares numbered .object) := fun _ _ _ => Declares.unique
  refine hunique.forall₂ h (.cons ?_ (.cons ?_ (.cons ?_ .nil)))
  · exact ⟨by decide +kernel, .scalar .integer, .scalar rfl, rfl⟩
  · exact ⟨rfl, .scalar .string, .scalar rfl, rfl⟩
  · exact ⟨rfl, .scalar .boolean, .scalar rfl, rfl⟩

/-- Of the two fields whose keys have the same text, the second one has the place of the first. -/
theorem fields_of_loaded_numbered : ∃ r kept, (ofDocument none (document numbered)).1 = .ok r ∧
    r.get? "step" = some (.object kept) ∧ kept.map Prod.fst = ["1", "unit"] ∧
    kept.lookup "1" = some (.scalar .boolean) := by
  obtain ⟨r, hr⟩ := load_numbered
  obtain ⟨definitions, hread, hget, hfields⟩ := fields_of_loaded hr
  rw [readDefinitions_numbered] at hread
  obtain rfl := Except.ok.inj hread
  obtain ⟨fields, kept, hdeclares, hobject, -, hkeys, hlast⟩ :=
    hfields ("step", combined .object (.map numberedEntries)) (by simp [numbered]) .object numberedEntries
      (.inl rfl) (.self _)
  obtain rfl := declares_numberedEntries hdeclares
  have hstep : Denotes numbered (.str "step") (.object kept) :=
    .reference (by decide) rfl ((hobject _).mpr rfl)
  exact ⟨r, kept, hr, (hget _ _).mpr ⟨by decide, hstep⟩, hkeys, hlast "1"⟩

/-- It is not so that the fields of every object are those that its entries declare: the third entry of this
one leaves nothing of the first. -/
theorem numbered_field_lost : ¬ ∀ (maxDepth : Option Int) (document : Value) (r : Registry),
    (ofDocument maxDepth document).1 = .ok r →
    ∀ definitions, readDefinitions document = .ok definitions →
    ∀ d ∈ definitions, ∀ (c : Combinator) (entries : List (Value × Value)),
      c = .object ∨ c = .partialObject → Contains d.2 (combined c (.map entries)) →
      ∃ fields, List.Forall₂ (Declares definitions c) entries fields ∧
        ∀ s, Denotes definitions (combined c (.map entries)) s ↔ s = .object fields := by
  intro h
  obtain ⟨r, hr⟩ := load_numbered
  obtain ⟨fields, hdeclares, hobject⟩ := h none _ r hr _ readDefinitions_numbered
    ("step", combined .object (.map numberedEntries)) (by simp [numbered]) .object numberedEntries
    (.inl rfl) (.self _)
  obtain ⟨declared, hdeclared, heq⟩ := exists_declares (.inl rfl) ((hobject _).mpr rfl)
  obtain rfl := declares_numberedEntries hdeclares
  obtain rfl := declares_numberedEntries hdeclared
  exact absurd (Named.distinct_eq_self.mp (Schema.object.inj heq).symm) (by decide)

end Wireform.Registry
