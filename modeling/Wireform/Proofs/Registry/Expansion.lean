import Wireform.Proofs.Registry.Load

/-!
# Definitions as expressions

A definition with every reference replaced by the definition that it refers to is an expression of
combinators. A registry that was loaded has, under each name, the schema that this expression builds, so
neither the order of the definitions nor what was resolved before matters to what it reads and writes.
-/
namespace Wireform.Registry

/-- The call of a combinator that a definition stands for, once those right inside its argument are
expressions. -/
inductive Calls : Combinator → Value → List Expr → Expr → Prop
  | optional (d : Value) (e : Expr) : Calls .optional d [e] (.optional (.schema e))
  | nullable (d : Value) (e : Expr) : Calls .nullable d [e] (.nullable (.schema e))
  | array (d : Value) (e : Expr) : Calls .array d [e] (.array (.schema e))
  | object {entries : List (Value × Value)} {fields : List (String × Expr)} :
      entries.map (fun e => e.1.text?) = fields.map (fun f => some f.1) →
      Calls .object (.map entries) (fields.map Prod.snd)
        (.object (.map (fields.map fun f => (.str f.1, .schema f.2))))
  | partialObject {entries : List (Value × Value)} {fields : List (String × Expr)} :
      entries.map (fun e => e.1.text?) = fields.map (fun f => some f.1) →
      Calls .partialObject (.map entries) (fields.map Prod.snd)
        (.partialObject (.map (fields.map fun f => (.str f.1, .schema f.2))))
  | tuple (items : List Value) (positions : List Expr) :
      Calls .tuple (.list items) positions (.tuple (positions.map .schema))
  | oneOf (members : Value) : Calls .oneOf members [] (.oneOf (.value members))
  | variant {entries : List (Value × Value)} {branches : List (String × Expr)} :
      entries.map (fun e => e.1.text?) = branches.map (fun b => some b.1) →
      Calls .variant (.map entries) (branches.map Prod.snd)
        (.variantOf Schema.defaultDiscriminant
          (.list (branches.map fun b => .tuple [.value (.str b.1), .schema b.2])))

/-- `Expands definitions d e`: the expression `e` is the definition `d` with every reference replaced, again
and again, by the definition that it refers to. -/
inductive Expands (definitions : List (String × Value)) : Value → Expr → Prop
  | scalar {name : String} {kind : Scalar} : Scalar.ofName? name = some kind →
      Expands definitions (.str name) (.scalar kind)
  | reference {name : String} {d : Value} {e : Expr} : Scalar.ofName? name = none →
      definitions.lookup name = some d → Expands definitions d e → Expands definitions (.str name) e
  | apply {c : Combinator} {argument : Value} {es : List Expr} {e : Expr} :
      (parts c argument).length = es.length →
      (∀ t ∈ (parts c argument).zip es, Expands definitions t.1 t.2) → Calls c argument es e →
      Expands definitions (combined c argument) e

/-- From whatever was reported before, the expression builds the schema. -/
def Builds (e : Expr) (s : Schema) : Prop :=
  ∀ p, ∃ q, Yields e.build p s q

theorem Builds.schema_eq {e : Expr} {s : Schema} (h : Builds e s) : e.schema.1 = .ok s := by
  obtain ⟨q, hq⟩ := h []
  exact congrArg Prod.fst hq

variable {definitions others : List (String × Value)}

theorem expands_combined {c : Combinator} {argument : Value} {e : Expr} :
    Expands definitions (combined c argument) e ↔
      ∃ es, List.Forall₂ (Expands definitions) (parts c argument) es ∧ Calls c argument es e := by
  constructor
  · intro h
    generalize hd : combined c argument = d at h
    cases h with
    | apply hlength hparts hcalls =>
        obtain ⟨rfl, rfl⟩ := combined_injective hd
        exact ⟨_, List.forall₂_iff_zip.mpr ⟨hlength, fun ht => hparts _ ht⟩, hcalls⟩
    | _ => cases hd
  · rintro ⟨es, hparts, hcalls⟩
    exact .apply hparts.length_eq (fun _ ht => List.forall₂_zip hparts ht) hcalls

/-- Things under the same texts that are related one by one are related under each text. -/
theorem forall₂_keyed {α β : Type} {R : α → β → Prop} {texts : List (Option String)}
    {xs : List (String × α)} {ys : List (String × β)} (hxs : texts = xs.map fun x => some x.1)
    (hys : texts = ys.map fun y => some y.1) (h : List.Forall₂ R (xs.map Prod.snd) (ys.map Prod.snd)) :
    List.Forall₂ (fun x y => x.1 = y.1 ∧ R x.2 y.2) xs ys := by
  subst hxs
  induction xs generalizing ys with
  | nil =>
      obtain rfl := List.map_eq_nil_iff.mp hys.symm
      exact .nil
  | cons x xs ih =>
      obtain ⟨y, ys, rfl, hname, hys⟩ := List.map_eq_cons_iff.mp hys.symm
      rw [List.map_cons, List.map_cons, List.forall₂_cons] at h
      exact .cons ⟨(Option.some.inj hname).symm, h.1⟩ (ih h.2 hys.symm)

theorem yields_buildEntries_of_forall₂ {fields : List (String × Expr)} {built : List (String × Schema)}
    (h : List.Forall₂ (fun f g => f.1 = g.1 ∧ Builds f.2 g.2) fields built) (p : List Log.Record) :
    ∃ q, Yields (Expr.buildEntries (fields.map fun f => (.str f.1, .schema f.2))) p
      (built.map fun g => (.str g.1, .schema g.2)) q := by
  induction h generalizing p with
  | nil => exact ⟨p, yields_pure.mpr ⟨rfl, rfl⟩⟩
  | cons hfg _ ih =>
      obtain ⟨hname, hbuilds⟩ := hfg
      obtain ⟨r, hr⟩ := hbuilds p
      obtain ⟨q, hq⟩ := ih r
      refine ⟨q, ?_⟩
      simp only [List.map_cons, Expr.buildEntries, Expr.buildArgument, yields_bind, yields_pure, hname]
      exact ⟨_, r, ⟨_, r, hr, rfl, rfl⟩, _, q, hq, rfl, rfl⟩

theorem yields_buildArguments_of_forall₂ {es : List Expr} {ss : List Schema}
    (h : List.Forall₂ Builds es ss) (p : List Log.Record) :
    ∃ q, Yields (Expr.buildArguments (es.map .schema)) p (ss.map .schema) q := by
  induction h generalizing p with
  | nil => exact ⟨p, yields_pure.mpr ⟨rfl, rfl⟩⟩
  | cons hbuilds _ ih =>
      obtain ⟨r, hr⟩ := hbuilds p
      obtain ⟨q, hq⟩ := ih r
      refine ⟨q, ?_⟩
      simp only [List.map_cons, Expr.buildArguments, Expr.buildArgument, yields_bind, yields_pure]
      exact ⟨_, r, ⟨_, r, hr, rfl, rfl⟩, _, q, hq, rfl, rfl⟩

theorem yields_buildArgument_pair {tag : String} {e : Expr} {s : Schema} {p q : List Log.Record}
    (h : Yields e.build p s q) :
    Yields (Expr.buildArgument (.tuple [.value (.str tag), .schema e])) p
      (.tuple [.value (.str tag), .schema s]) q := by
  simp only [Expr.buildArguments, Expr.buildArgument, yields_bind, yields_pure]
  exact ⟨_, q, ⟨_, p, ⟨rfl, rfl⟩, _, q, ⟨_, q, ⟨_, q, h, rfl, rfl⟩, _, q, ⟨rfl, rfl⟩, rfl, rfl⟩, rfl, rfl⟩,
    rfl, rfl⟩

theorem yields_buildArguments_pairs {pairs : List (String × Expr)} {built : List (String × Schema)}
    (h : List.Forall₂ (fun f g => f.1 = g.1 ∧ Builds f.2 g.2) pairs built) (p : List Log.Record) :
    ∃ q, Yields (Expr.buildArguments (pairs.map fun b => .tuple [.value (.str b.1), .schema b.2])) p
      (built.map fun g => .tuple [.value (.str g.1), .schema g.2]) q := by
  induction h generalizing p with
  | nil => exact ⟨p, yields_pure.mpr ⟨rfl, rfl⟩⟩
  | cons hfg _ ih =>
      obtain ⟨hname, hbuilds⟩ := hfg
      obtain ⟨r, hr⟩ := hbuilds p
      obtain ⟨q, hq⟩ := ih r
      refine ⟨q, ?_⟩
      simp only [List.map_cons, Expr.buildArguments, yields_bind, yields_pure, hname]
      exact ⟨_, r, yields_buildArgument_pair hr, _, q, hq, rfl, rfl⟩

/-- The fields of an object, from expressions under names to the schemas that they build. -/
theorem fieldsOf_distinct (c : Combinator) (built : List (String × Schema)) :
    Schema.fieldsOf c (.map (built.map fun g => (.str g.1, .schema g.2))) = .ok (Named.distinct built) :=
  Schema.fieldsOf_eq_ok.mpr (congrArg some (Named.distinct_map_str Argument.schema built))

/-- A schema that is built and then put into another one. -/
theorem Builds.unary {e : Expr} {t : Schema} (h : Builds e t) (place : Place) (mk : Schema → Schema)
    (p : List Log.Record) :
    ∃ q, Yields (do
      let operand ← Expr.buildArgument (.schema e)
      return mk (← Build.ofExcept (Schema.require place operand))) p (mk t) q := by
  obtain ⟨q, hq⟩ := h p
  refine ⟨q, ?_⟩
  simp only [Expr.buildArgument, yields_bind, yields_ofExcept, yields_pure]
  exact ⟨_, q, ⟨_, q, hq, rfl, rfl⟩, _, q, ⟨rfl, rfl⟩, rfl, rfl⟩

/-- Fields that are built and then put into an object. -/
theorem builds_object {fields : List (String × Expr)} {built : List (String × Schema)}
    (h : List.Forall₂ (fun f g => f.1 = g.1 ∧ Builds f.2 g.2) fields built) (c : Combinator)
    (mk : List (String × Schema) → Schema) (p : List Log.Record) :
    ∃ q, Yields (do
      let operand ← Expr.buildArgument (.map (fields.map fun f => (.str f.1, .schema f.2)))
      return mk (← Build.ofExcept (Schema.fieldsOf c operand))) p
      (mk (Named.distinct built)) q := by
  obtain ⟨q, hq⟩ := yields_buildEntries_of_forall₂ h p
  refine ⟨q, ?_⟩
  simp only [Expr.buildArgument, yields_bind, yields_ofExcept, yields_pure]
  exact ⟨_, q, ⟨_, q, hq, rfl, rfl⟩, _, q, ⟨fieldsOf_distinct c built, rfl⟩, rfl, rfl⟩

theorem builds_oneOf {v : Value} {values : List Value} {members : List String}
    (htext : ∀ s, v ≠ .str s) (hvalues : v.iterate? = some values)
    (hmembers : Schema.texts? values = some members) : Builds (.oneOf (.value v)) (.oneOf members) := by
  intro p
  refine ⟨p, ?_⟩
  simp only [Expr.build, Expr.buildArgument, yields_bind, yields_ofExcept, yields_pure]
  exact ⟨_, p, ⟨rfl, rfl⟩, _, p, ⟨(requireMembers_eq_ok htext hvalues).mpr hmembers, rfl⟩, rfl, rfl⟩

/-- A call builds what its combinator assembles. -/
theorem Calls.builds {c : Combinator} {argument : Value} {es : List Expr} {ss : List Schema} {e : Expr}
    {s : Schema} (hcalls : Calls c argument es e) (hassembles : Assembles c argument ss s)
    (hparts : List.Forall₂ Builds es ss) : Builds e s := by
  cases hassembles with
  | optional d t =>
      cases hcalls
      exact (List.forall₂_cons.mp hparts).1.unary (.inner .optional) .optional
  | nullable d t =>
      cases hcalls
      exact (List.forall₂_cons.mp hparts).1.unary (.inner .nullable) .nullable
  | array d t =>
      cases hcalls
      exact (List.forall₂_cons.mp hparts).1.unary (.inner .array) .array
  | object hbuilt =>
      cases hcalls with
      | object hfields => exact builds_object (forall₂_keyed hfields hbuilt hparts) .object .object
  | partialObject hbuilt =>
      cases hcalls with
      | partialObject hfields =>
          exact builds_object (forall₂_keyed hfields hbuilt hparts) .partialObject Schema.partialObject
  | items hmembers =>
      cases hcalls
      exact builds_oneOf (by simp) rfl hmembers
  | keys hmembers =>
      cases hcalls
      exact builds_oneOf (by simp) rfl hmembers
  | tuple items positions =>
      cases hcalls
      intro p
      obtain ⟨q, hq⟩ := yields_buildArguments_of_forall₂ hparts p
      refine ⟨q, ?_⟩
      simp only [Expr.build, yields_bind, yields_ofExcept, yields_pure]
      exact ⟨_, q, hq, _, q, ⟨Schema.requirePositions_eq_ok.mpr rfl, rfl⟩, rfl, rfl⟩
  | @variant entries branches hne hbuilt =>
      cases hcalls with
      | @variant _ pairs hpairs =>
          have hobjects : entries.map (fun e => e.1.text?) =
              (branches.map fun b => (b.1, Schema.object b.2)).map fun g => some g.1 := by
            rw [hbuilt, List.map_map]
            rfl
          have hsnd : branches.map (fun b => Schema.object b.2) =
              (branches.map fun b => (b.1, Schema.object b.2)).map Prod.snd := by
            rw [List.map_map]
            rfl
          rw [hsnd] at hparts
          intro p
          obtain ⟨q, hq⟩ := yields_buildArguments_pairs (forall₂_keyed hpairs hobjects hparts) p
          refine ⟨q ++ Schema.tagWarnings (branches.map (·.1)), ?_⟩
          simp only [Expr.build, Expr.buildArgument, Schema.buildVariant, yields_bind, yields_pure]
          refine ⟨_, q, ⟨_, q, hq, rfl, rfl⟩, ?_⟩
          simp only [Argument.iterate?, yields_bind, yields_ofExcept, yields_modify, yields_pure]
          refine ⟨branches, q, ⟨Schema.branchesOf_eq_ok.mpr ?_, rfl⟩, _, q,
            ⟨variantOf_eq_ok.mpr ⟨hne, rfl⟩, rfl⟩, (), _, rfl, rfl, rfl⟩
          rw [List.map_map, List.map_map]
          rfl

theorem exists_calls {c : Combinator} {argument : Value} {es : List Expr}
    (haccepts : Accepts c argument) (hlength : (parts c argument).length = es.length) :
    ∃ e, Calls c argument es e := by
  unfold Accepts at haccepts
  split at haccepts
  · obtain ⟨e, rfl⟩ := List.length_eq_one_iff.mp hlength.symm
    exact ⟨_, .optional _ e⟩
  · obtain ⟨e, rfl⟩ := List.length_eq_one_iff.mp hlength.symm
    exact ⟨_, .nullable _ e⟩
  · obtain ⟨e, rfl⟩ := List.length_eq_one_iff.mp hlength.symm
    exact ⟨_, .array _ e⟩
  · exact ⟨_, .tuple _ es⟩
  · obtain ⟨fields, hfields, rfl⟩ := exists_keyed haccepts (by simpa [parts] using hlength)
    exact ⟨_, .object hfields⟩
  · obtain ⟨fields, hfields, rfl⟩ := exists_keyed haccepts (by simpa [parts] using hlength)
    exact ⟨_, .partialObject hfields⟩
  · obtain rfl := List.length_eq_zero_iff.mp hlength.symm
    exact ⟨_, .oneOf _⟩
  · obtain rfl := List.length_eq_zero_iff.mp hlength.symm
    exact ⟨_, .oneOf _⟩
  · obtain ⟨branches, hbranches, rfl⟩ := exists_keyed haccepts.2 (by simpa [parts] using hlength)
    exact ⟨_, .variant hbranches⟩
  · cases haccepts

theorem exists_forall₂ {α β : Type} {R : α → β → Prop} {as : List α} (h : ∀ a ∈ as, ∃ b, R a b) :
    ∃ bs, List.Forall₂ R as bs := by
  induction as with
  | nil => exact ⟨[], .nil⟩
  | cons a as ih =>
      simp only [List.forall_mem_cons] at h
      obtain ⟨b, hb⟩ := h.1
      obtain ⟨bs, hbs⟩ := ih h.2
      exact ⟨b :: bs, .cons hb hbs⟩

theorem forall₂_of_common {α β γ : Type} {R : α → β → Prop} {S : α → γ → Prop} {T : β → γ → Prop}
    {as : List α} {bs : List β} {cs : List γ} (hR : List.Forall₂ R as bs) (hS : List.Forall₂ S as cs)
    (h : ∀ {a b c}, R a b → S a c → T b c) : List.Forall₂ T bs cs := by
  induction hR generalizing cs with
  | nil =>
      cases hS
      exact .nil
  | cons hab _ ih =>
      obtain ⟨c, cs, hac, hcs, rfl⟩ := List.forall₂_cons_left_iff.mp hS
      exact .cons (h hab hac) (ih hcs)

/-- A definition that denotes a schema is expanded after finitely many steps. -/
theorem Denotes.exists_expands {d : Value} {s : Schema} (h : Denotes definitions d s) :
    ∃ e, Expands definitions d e := by
  induction h using Denotes.induction with
  | scalar hname => exact ⟨_, .scalar hname⟩
  | reference hname hlookup _ ih =>
      obtain ⟨e, he⟩ := ih
      exact ⟨e, .reference hname hlookup he⟩
  | apply _ hparts hassembles =>
      obtain ⟨es, hes⟩ := exists_forall₂ fun d hd => by
        obtain ⟨_, -, -, he⟩ := exists_of_forall₂ hparts d hd
        exact he
      obtain ⟨e, he⟩ := exists_calls hassembles.accepts hes.length_eq
      exact ⟨e, expands_combined.mpr ⟨es, hes, he⟩⟩

/-- The expansion of a definition builds the schema that the definition denotes. -/
theorem Denotes.builds {d : Value} {s : Schema} (h : Denotes definitions d s) :
    ∀ {e}, Expands definitions d e → Builds e s := by
  induction h using Denotes.induction with
  | scalar hname =>
      intro e he
      cases he with
      | scalar hname' =>
          rw [hname] at hname'
          cases hname'
          exact fun p => ⟨p, yields_pure.mpr ⟨rfl, rfl⟩⟩
      | reference hnone => simp [hname] at hnone
  | reference hname hlookup _ ih =>
      intro e he
      cases he with
      | scalar hname' => simp [hname] at hname'
      | reference _ hlookup' he =>
          rw [hlookup] at hlookup'
          cases hlookup'
          exact ih he
  | apply _ hparts hassembles =>
      intro e he
      obtain ⟨es, hes, hcalls⟩ := expands_combined.mp he
      refine hcalls.builds hassembles (forall₂_of_common hes hparts fun he hd => ?_)
      obtain ⟨-, hbuilds⟩ := hd
      exact hbuilds he

/-- No definition denotes two schemas. -/
theorem Denotes.unique {d : Value} {s t : Schema} (hs : Denotes definitions d s)
    (ht : Denotes definitions d t) : s = t := by
  obtain ⟨e, he⟩ := hs.exists_expands
  exact Except.ok.inj ((hs.builds he).schema_eq.symm.trans (ht.builds he).schema_eq)

section

variable {maxDepth : Option Int} {document : Value} {r : Registry}
  {definitions : List (String × Value)} (hread : readDefinitions document = .ok definitions)
  (h : (ofDocument maxDepth document).1 = .ok r)
include hread h

/-- A registry that was loaded has the schemas that its names denote, and no others. -/
theorem get?_eq_some_iff {name : String} {s : Schema} :
    r.get? name = some s ↔ name ∈ definitions.map Prod.fst ∧ Denotes definitions (.str name) s := by
  obtain ⟨_, hread', -, -, hnames, hall⟩ := of_ofDocument h
  rw [hread] at hread'
  cases hread'
  rw [← hnames]
  constructor
  · intro hs
    have hmem := Named.mem_of_lookup hs
    exact ⟨List.mem_map_of_mem hmem, hall _ hmem⟩
  · rintro ⟨hname, hs⟩
    obtain ⟨t, ht⟩ := Named.exists_lookup hname
    have heq : t = s := (hall _ (Named.mem_of_lookup ht)).unique hs
    exact heq ▸ ht

/-- Under each name, a registry that was loaded has the schema that the expansion of the name builds. -/
theorem get?_expands {name : String} (hname : name ∈ r.names) :
    ∃ s, r.get? name = some s ∧ (∃ e, Expands definitions (.str name) e) ∧
      ∀ e, Expands definitions (.str name) e → e.schema.1 = .ok s := by
  obtain ⟨s, hs⟩ := Named.exists_lookup hname
  obtain ⟨-, hdenotes⟩ := (get?_eq_some_iff hread h).mp hs
  exact ⟨s, hs, hdenotes.exists_expands, fun e he => (hdenotes.builds he).schema_eq⟩

end

end Wireform.Registry
