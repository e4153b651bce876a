import Wireform.Proofs.Registry.Definition

/-!
# One step of resolving

What building a definition yields, given what references yield: the parts of its argument are built one after
the other, and the combinator assembles what they are. This is all that later modules need to know about the
builder.
-/
namespace Wireform.Registry

variable {p q : Progress}

@[simp] theorem yields_checked {α : Type} {location : Location} {x : Except BuildFault α} {a : α} :
    Yields (checked location x) p a q ↔ x = .ok a ∧ p = q := by
  cases x with
  | ok b => simp [checked]
  | error fault => cases fault <;> simp [checked]

@[simp] theorem yields_needed {text : Option String} {s : String} :
    Yields (needed text) p s q ↔ text = some s ∧ p = q := by
  cases text <;> simp [needed]

@[simp] theorem yields_report {records : List Log.Record} {u : Unit} :
    Yields (report records) p u q ↔ { p with log := p.log ++ records } = q :=
  yields_modify

@[simp] theorem yields_combinator {location : Location} {key : Value} {c : Combinator} :
    Yields (combinator location key) p c q ↔ key = .str c.name ∧ p = q := by
  cases key with
  | str name =>
      simp only [combinator, Value.str.injEq]
      split
      · rename_i c' hc'
        obtain rfl := Combinator.name_of_ofName? hc'
        rw [yields_pure]
        constructor
        · rintro ⟨rfl, rfl⟩
          exact ⟨rfl, rfl⟩
        · rintro ⟨hname, rfl⟩
          rw [hname, Combinator.ofName?_name] at hc'
          exact ⟨(Option.some.inj hc').symm, rfl⟩
      · rename_i hnone
        simp only [yields_throw, false_iff, not_and]
        rintro rfl
        simp [Combinator.ofName?_name] at hnone
  | _ => simp [combinator]

theorem yields_combinator_name {location : Location} {c c' : Combinator} :
    Yields (combinator location (.str c.name)) p c' q ↔ c' = c ∧ p = q := by
  rw [yields_combinator, Value.str.injEq]
  refine and_congr_left' ⟨fun h => ?_, fun h => h ▸ rfl⟩
  have hname := Combinator.ofName?_name c
  rw [h, Combinator.ofName?_name] at hname
  exact Option.some.inj hname

/-- `Through reference ps p ss q`: building the definitions `ps` one after the other, each at its place,
leads from `p` to `q` and gives the schemas `ss`. -/
inductive Through (reference : Lookup) :
    List (Location × Value) → Progress → List Schema → Progress → Prop
  | nil (p : Progress) : Through reference [] p [] p
  | cons {location : Location} {d : Value} {s : Schema} {ps : List (Location × Value)}
      {ss : List Schema} {p r q : Progress} : Yields (build reference location d) p s r →
      Through reference ps r ss q → Through reference ((location, d) :: ps) p (s :: ss) q

variable {reference : Lookup}

@[simp] theorem through_nil {ss : List Schema} : Through reference [] p ss q ↔ ss = [] ∧ p = q := by
  constructor
  · rintro ⟨⟩
    exact ⟨rfl, rfl⟩
  · rintro ⟨rfl, rfl⟩
    exact .nil p

theorem through_cons {location : Location} {d : Value} {ps : List (Location × Value)}
    {ss : List Schema} : Through reference ((location, d) :: ps) p ss q ↔
      ∃ s rest r, ss = s :: rest ∧ Yields (build reference location d) p s r ∧
        Through reference ps r rest q := by
  constructor
  · rintro ⟨⟩
    exact ⟨_, _, _, rfl, ‹_›, ‹_›⟩
  · rintro ⟨s, rest, r, rfl, hs, hrest⟩
    exact .cons hs hrest

@[simp] theorem through_singleton {location : Location} {d : Value} {ss : List Schema} :
    Through reference [(location, d)] p ss q ↔
      ∃ s, ss = [s] ∧ Yields (build reference location d) p s q := by
  simp only [through_cons, through_nil]
  constructor
  · rintro ⟨s, _, r, rfl, hs, rfl, rfl⟩
    exact ⟨s, rfl, hs⟩
  · rintro ⟨s, rfl, hs⟩
    exact ⟨s, [], q, rfl, hs, rfl, rfl⟩

/-- The places of definitions under keys. -/
def keyPlaces (inside : Location) (entries : List (Value × Value)) : List (Location × Value) :=
  entries.map fun e => (inside.step (.key (e.1.text?.getD "")), e.2)

/-- The places of definitions in a list, the first of them at the given index. -/
def indexPlaces (inside : Location) (i : Nat) (items : List Value) : List (Location × Value) :=
  (items.zipIdx i).map fun t => (inside.step (.index t.2), t.1)

/-- The definitions right inside an argument, with their places. -/
def places (location : Location) (c : Combinator) (argument : Value) : List (Location × Value) :=
  let inside := location.step (.combinator c)
  match c, argument with
  | .optional, d | .nullable, d | .array, d => [(inside, d)]
  | .object, .map entries | .partialObject, .map entries | .variant, .map entries =>
    keyPlaces inside entries
  | .tuple, .list items => indexPlaces inside 0 items
  | _, _ => []

theorem map_places (location : Location) (c : Combinator) (argument : Value) :
    (places location c argument).map Prod.snd = parts c argument := by
  have hkeys (inside : Location) (entries : List (Value × Value)) :
      (keyPlaces inside entries).map Prod.snd = entries.map Prod.snd := by
    simp [keyPlaces, Function.comp_def]
  have hindices (inside : Location) (items : List Value) :
      (indexPlaces inside 0 items).map Prod.snd = items := by
    simp [indexPlaces, Function.comp_def]
  cases c <;> cases argument <;> first | rfl | exact hkeys _ _ | exact hindices _ _

theorem mem_parts_of_places {location : Location} {c : Combinator} {argument : Value}
    {place : Location × Value} (h : place ∈ places location c argument) : place.2 ∈ parts c argument :=
  map_places location c argument ▸ List.mem_map_of_mem h

/-- What is reported about a schema once it is assembled. -/
def warnings : Schema → List Log.Record
  | .variant _ branches => Schema.tagWarnings (branches.map (·.1))
  | _ => []

theorem yields_buildFields {inside : Location} {found out : List (String × Schema)}
    {entries : List (Value × Value)} :
    Yields (buildFields reference inside found entries) p out q ↔
      ∃ fields : List (String × Schema),
        entries.map (fun e => e.1.text?) = fields.map (fun f => some f.1) ∧
        Through reference (keyPlaces inside entries) p (fields.map Prod.snd) q ∧
        out = fields.foldl (fun found f => Named.put f.1 f.2 found) found := by
  induction entries generalizing found p with
  | nil =>
      simp only [buildFields, yields_pure, keyPlaces, List.map_nil, through_nil]
      constructor
      · rintro ⟨rfl, rfl⟩
        exact ⟨[], rfl, ⟨rfl, rfl⟩, rfl⟩
      · rintro ⟨fields, hnil, ⟨-, rfl⟩, rfl⟩
        obtain rfl := List.map_eq_nil_iff.mp hnil.symm
        exact ⟨rfl, rfl⟩
  | cons e entries ih =>
      obtain ⟨key, d⟩ := e
      simp only [buildFields, yields_bind, yields_needed, ih, keyPlaces, List.map_cons, through_cons]
      constructor
      · rintro ⟨name, _, ⟨hname, rfl⟩, s, r, hs, fields, hnames, hthrough, rfl⟩
        refine ⟨(name, s) :: fields, by simp [hname, hnames], ⟨s, _, r, rfl, ?_, hthrough⟩, rfl⟩
        simpa [hname] using hs
      · rintro ⟨fields, hnames, ⟨s, rest, r, hrest, hs, hthrough⟩, rfl⟩
        obtain ⟨f, fields, rfl, hname, hnames⟩ := List.map_eq_cons_iff.mp hnames.symm
        simp only [List.map_cons, List.cons.injEq] at hrest
        obtain ⟨rfl, rfl⟩ := hrest
        refine ⟨f.1, p, ⟨hname.symm, rfl⟩, f.2, r, ?_, fields, hnames.symm, hthrough, rfl⟩
        simpa [← hname] using hs

theorem yields_buildPositions {inside : Location} {i : Nat} {items : List Value} {ss : List Schema} :
    Yields (buildPositions reference inside i items) p ss q ↔
      Through reference (indexPlaces inside i items) p ss q := by
  induction items generalizing i p q ss with
  | nil => simp [buildPositions, indexPlaces, eq_comm]
  | cons d items ih =>
      simp only [buildPositions, yields_bind, yields_pure, ih, indexPlaces, List.zipIdx_cons,
        List.map_cons, through_cons]
      constructor
      · rintro ⟨s, r, hs, rest, _, hrest, rfl, rfl⟩
        exact ⟨s, rest, r, rfl, hs, hrest⟩
      · rintro ⟨s, rest, r, rfl, hs, hrest⟩
        exact ⟨s, r, hs, rest, q, hrest, rfl, rfl⟩

theorem requireBranch_eq_ok {tag : String} {s : Schema} {b : Schema.Branch} :
    Schema.requireBranch tag (.schema s) = .ok b ↔ tag = b.1 ∧ s = .object b.2 := by
  have h := @Schema.branchOf_eq_ok (.value (.str tag)) (.schema s) b
  simpa [Schema.branchOf] using h

theorem yields_buildBranches {location inside : Location} {entries : List (Value × Value)}
    {branches : List Schema.Branch} :
    Yields (buildBranches reference location inside entries) p branches q ↔
      entries.map (fun e => e.1.text?) = branches.map (fun b => some b.1) ∧
      Through reference (keyPlaces inside entries) p (branches.map fun b => .object b.2) q := by
  induction entries generalizing p q branches with
  | nil =>
      simp only [buildBranches, yields_pure, keyPlaces, List.map_nil, through_nil]
      constructor
      · rintro ⟨rfl, rfl⟩
        exact ⟨rfl, rfl, rfl⟩
      · rintro ⟨hnil, -, rfl⟩
        exact ⟨(List.map_eq_nil_iff.mp hnil.symm).symm, rfl⟩
  | cons e entries ih =>
      obtain ⟨key, d⟩ := e
      simp only [buildBranches, yields_bind, yields_needed, yields_checked, requireBranch_eq_ok, ih,
        yields_pure, keyPlaces, List.map_cons, through_cons]
      constructor
      · rintro ⟨tag, _, ⟨hname, rfl⟩, s, r, hs, b, _, ⟨⟨rfl, rfl⟩, rfl⟩, rest, _, ⟨hnames, hthrough⟩,
          rfl, rfl⟩
        refine ⟨by simp [hname, hnames], _, _, r, rfl, ?_, hthrough⟩
        simpa [hname] using hs
      · rintro ⟨hnames, s, rest, r, hrest, hs, hthrough⟩
        obtain ⟨b, branches, rfl, hname, hnames⟩ := List.map_eq_cons_iff.mp hnames.symm
        simp only [List.map_cons, List.cons.injEq] at hrest
        obtain ⟨rfl, rfl⟩ := hrest
        refine ⟨b.1, p, ⟨hname.symm, rfl⟩, .object b.2, r, ?_, b, r, ⟨⟨rfl, rfl⟩, rfl⟩, branches, q,
          ⟨hnames.symm, hthrough⟩, rfl, rfl⟩
        simpa [← hname] using hs

theorem yields_fieldsOf {inside : Location} {argument : Value} {out : List (String × Schema)} :
    Yields (fieldsOf reference inside argument) p out q ↔
      ∃ entries fields, argument = .map entries ∧
        entries.map (fun e => e.1.text?) = fields.map (fun f => some f.1) ∧
        Through reference (keyPlaces inside entries) p (fields.map Prod.snd) q ∧
        out = Named.distinct fields := by
  cases argument with
  | map entries => simp [fieldsOf, yields_buildFields, Named.distinct]
  | _ => simp [fieldsOf]

theorem yields_positionsOf {inside : Location} {argument : Value} {ss : List Schema} :
    Yields (positionsOf reference inside argument) p ss q ↔
      ∃ items, argument = .list items ∧ Through reference (indexPlaces inside 0 items) p ss q := by
  cases argument with
  | list items => simp [positionsOf, yields_buildPositions]
  | _ => simp [positionsOf]

theorem yields_branchesOf {location inside : Location} {argument : Value}
    {branches : List Schema.Branch} :
    Yields (branchesOf reference location inside argument) p branches q ↔
      ∃ entries, argument = .map entries ∧
        entries.map (fun e => e.1.text?) = branches.map (fun b => some b.1) ∧
        Through reference (keyPlaces inside entries) p (branches.map fun b => .object b.2) q := by
  cases argument with
  | map entries => simp [branchesOf, yields_buildBranches]
  | _ => simp [branchesOf]

theorem requireMembers_of_iterate? {v : Value} {values : List Value} (htext : ∀ s, v ≠ .str s)
    (hvalues : v.iterate? = some values) :
    Schema.requireMembers (.value v) =
      (Schema.texts? values).elim (.error (.definition .memberNotText)) .ok := by
  have hitems : (Argument.value v : Operand).iterate? = some (values.map .value) := by
    rw [Argument.iterate?, hvalues, Option.map_some]
  cases v with
  | str s => exact absurd rfl (htext s)
  | _ =>
      simp only [Schema.requireMembers, hitems, Schema.mapM_plain?_eq_some.mpr rfl, Option.bind_some]
      cases Schema.texts? values <;> rfl

/-- The members of anything but a text are its items, if these are texts. -/
theorem requireMembers_eq_ok {v : Value} {values : List Value} {members : List String}
    (htext : ∀ s, v ≠ .str s) (hvalues : v.iterate? = some values) :
    Schema.requireMembers (.value v) = .ok members ↔ Schema.texts? values = some members := by
  rw [requireMembers_of_iterate? htext hvalues]
  cases Schema.texts? values <;> simp

theorem yields_membersOf {location inside : Location} {argument : Value} {members : List String} :
    Yields (membersOf location inside argument) p members q ↔
      Assembles .oneOf argument [] (.oneOf members) ∧ p = q := by
  cases argument with
  | list items =>
      rw [membersOf, yields_checked, requireMembers_eq_ok (by simp) rfl]
      refine and_congr_left' ⟨.items, ?_⟩
      rintro ⟨⟩
      assumption
  | map entries =>
      rw [membersOf, yields_checked, requireMembers_eq_ok (by simp) rfl]
      refine and_congr_left' ⟨.keys, ?_⟩
      rintro ⟨⟩
      assumption
  | _ =>
      simp only [membersOf, yields_throw, false_iff, not_and]
      rintro ⟨⟩

theorem variantOf_eq_ok {discriminant : String} {branches : List Schema.Branch} {s : Schema} :
    Schema.variantOf discriminant branches = .ok s ↔
      branches ≠ [] ∧ s = .variant discriminant branches := by
  cases branches <;> simp [Schema.variantOf, eq_comm]

section

variable {c : Combinator} {argument : Value} {s : Schema}

theorem quiet (r : Progress) : { r with log := r.log ++ [] } = r := by simp

/-- A combinator of one definition. -/
theorem yields_unary {step : Resolve Schema} {mk : Schema → Schema}
    (hmk : ∀ {ss}, Assembles c argument ss s ↔ ∃ t, ss = [t] ∧ s = mk t)
    (hquiet : ∀ t, warnings (mk t) = []) :
    Yields (step >>= fun t => pure (mk t)) p s q ↔
      ∃ ss r, (∃ t, ss = [t] ∧ Yields step p t r) ∧ Assembles c argument ss s ∧
        q = { r with log := r.log ++ warnings s } := by
  simp only [yields_bind, yields_pure, hmk]
  constructor
  · rintro ⟨t, _, ht, rfl, rfl⟩
    exact ⟨[t], _, ⟨t, rfl, ht⟩, ⟨t, rfl, rfl⟩, by rw [hquiet, quiet]⟩
  · rintro ⟨_, r, ⟨t, rfl, ht⟩, ⟨_, hsame, rfl⟩, rfl⟩
    cases hsame
    exact ⟨t, r, ht, rfl, by rw [hquiet, quiet]⟩

/-- A combinator of fields. -/
theorem yields_object {location inside : Location} {mk : List (String × Schema) → Schema}
    (hmk : ∀ {ss}, Assembles c argument ss s ↔ ∃ entries fields, argument = .map entries ∧
      entries.map (fun e => e.1.text?) = fields.map (fun f => some f.1) ∧
      ss = fields.map Prod.snd ∧ s = mk (Named.distinct fields))
    (hplaces : ∀ entries, argument = .map entries → places location c argument = keyPlaces inside entries)
    (hquiet : ∀ fields, warnings (mk fields) = []) :
    Yields (fieldsOf reference inside argument >>= fun fields => pure (mk fields)) p s q ↔
      ∃ ss r, Through reference (places location c argument) p ss r ∧ Assembles c argument ss s ∧
        q = { r with log := r.log ++ warnings s } := by
  simp only [yields_bind, yields_pure, yields_fieldsOf, hmk]
  constructor
  · rintro ⟨_, r, ⟨entries, fields, harg, hnames, hthrough, rfl⟩, rfl, rfl⟩
    refine ⟨_, r, hplaces entries harg ▸ hthrough, ⟨entries, fields, harg, hnames, rfl, rfl⟩, ?_⟩
    rw [hquiet, quiet]
  · rintro ⟨_, r, hthrough, ⟨entries, fields, harg, hnames, rfl, rfl⟩, rfl⟩
    rw [hplaces entries harg] at hthrough
    exact ⟨_, r, ⟨entries, fields, harg, hnames, hthrough, rfl⟩, rfl, by rw [hquiet, quiet]⟩

/-- Building a combinator builds the parts of its argument in order and assembles them. -/
theorem yields_build_combined {location : Location} :
    Yields (build reference location (combined c argument)) p s q ↔
      ∃ ss r, Through reference (places location c argument) p ss r ∧ Assembles c argument ss s ∧
        q = { r with log := r.log ++ warnings s } := by
  rw [combined, build, yields_bind]
  simp only [yields_combinator_name, and_assoc, exists_and_left, exists_eq_left, exists_eq_left']
  cases c with
  | optional =>
      simp only [places, through_singleton]
      refine yields_unary ⟨?_, ?_⟩ fun _ => rfl
      · rintro ⟨⟩
        exact ⟨_, rfl, rfl⟩
      · rintro ⟨t, rfl, rfl⟩
        exact .optional argument t
  | nullable =>
      simp only [places, through_singleton]
      refine yields_unary ⟨?_, ?_⟩ fun _ => rfl
      · rintro ⟨⟩
        exact ⟨_, rfl, rfl⟩
      · rintro ⟨t, rfl, rfl⟩
        exact .nullable argument t
  | array =>
      simp only [places, through_singleton]
      refine yields_unary ⟨?_, ?_⟩ fun _ => rfl
      · rintro ⟨⟩
        exact ⟨_, rfl, rfl⟩
      · rintro ⟨t, rfl, rfl⟩
        exact .array argument t
  | object =>
      refine yields_object ⟨?_, ?_⟩ (fun _ h => h ▸ rfl) fun _ => rfl
      · rintro ⟨⟩
        exact ⟨_, _, rfl, ‹_›, rfl, rfl⟩
      · rintro ⟨entries, fields, rfl, hnames, rfl, rfl⟩
        exact .object hnames
  | partialObject =>
      refine yields_object ⟨?_, ?_⟩ (fun _ h => h ▸ rfl) fun _ => rfl
      · rintro ⟨⟩
        exact ⟨_, _, rfl, ‹_›, rfl, rfl⟩
      · rintro ⟨entries, fields, rfl, hnames, rfl, rfl⟩
        exact .partialObject hnames
  | tuple =>
      simp only [yields_bind, yields_positionsOf, yields_pure]
      constructor
      · rintro ⟨ss, r, ⟨items, rfl, hthrough⟩, rfl, rfl⟩
        exact ⟨ss, r, hthrough, .tuple items ss, (quiet r).symm⟩
      · rintro ⟨ss, r, hthrough, hassembles, rfl⟩
        cases hassembles with
        | tuple items => exact ⟨ss, r, ⟨items, rfl, hthrough⟩, rfl, (quiet r).symm⟩
  | oneOf =>
      simp only [yields_bind, yields_membersOf, yields_pure]
      constructor
      · rintro ⟨members, _, ⟨hassembles, rfl⟩, rfl, rfl⟩
        refine ⟨[], p, ?_, hassembles, (quiet p).symm⟩
        cases hassembles <;> exact .nil p
      · rintro ⟨ss, r, hthrough, hassembles, rfl⟩
        cases hassembles with
        | items hmembers | keys hmembers =>
            obtain ⟨-, rfl⟩ := through_nil.mp hthrough
            exact ⟨_, p, ⟨by constructor; exact hmembers, rfl⟩, rfl, (quiet p).symm⟩
  | variant =>
      simp only [yields_bind, yields_branchesOf, yields_checked, variantOf_eq_ok, yields_report,
        yields_pure]
      constructor
      · rintro ⟨branches, r, ⟨entries, rfl, hnames, hthrough⟩, s, _, ⟨⟨hne, rfl⟩, rfl⟩, _, _, rfl, rfl, rfl⟩
        exact ⟨_, r, hthrough, .variant hne hnames, rfl⟩
      · rintro ⟨ss, r, hthrough, hassembles, rfl⟩
        cases hassembles with
        | variant hne hnames =>
            exact ⟨_, r, ⟨_, rfl, hnames, hthrough⟩, _, r, ⟨⟨hne, rfl⟩, rfl⟩, (), _, rfl, rfl, rfl⟩

end

theorem yields_build_str {location : Location} {name : String} {s : Schema} :
    Yields (build reference location (.str name)) p s q ↔
      (∃ kind, Scalar.ofName? name = some kind ∧ s = .scalar kind ∧ p = q) ∨
      (Scalar.ofName? name = none ∧ Yields (reference location name) p s q) := by
  rw [build]
  split
  · rename_i kind hkind
    simp [hkind, eq_comm]
  · rename_i hnone
    simp [hnone]

/-- Nothing else is built. -/
theorem not_yields_build {location : Location} {d : Value} {s : Schema} (htext : ∀ name, d ≠ .str name)
    (hcombined : ∀ c argument, d ≠ combined c argument) : ¬ Yields (build reference location d) p s q := by
  intro h
  unfold build at h
  split at h
  · exact htext _ rfl
  · simp only [yields_bind, yields_combinator] at h
    obtain ⟨c, _, ⟨rfl, -⟩, -⟩ := h
    exact hcombined c _ rfl
  · simp at h

end Wireform.Registry
