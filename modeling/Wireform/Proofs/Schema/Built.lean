import Wireform.Schema.Expr
import Wireform.Proofs.Value
import Wireform.Proofs.Yields

/-!
# Schemas that combinators build

What is known of a schema because an expression was built into it: the fields of an object have different
names, and a variant has branches. The checked forms of the combinators are described by what they accept.
-/
namespace Wireform

namespace Schema

/-- A schema put together by combinators. -/
inductive Built : Schema → Prop
  | scalar (kind : Scalar) : Built (.scalar kind)
  | optional {inner : Schema} : Built inner → Built (.optional inner)
  | nullable {inner : Schema} : Built inner → Built (.nullable inner)
  | array {item : Schema} : Built item → Built (.array item)
  | object {fields : List (String × Schema)} : (fields.map Prod.fst).Nodup →
      (∀ f ∈ fields, Built f.2) → Built (.object fields)
  | tuple {positions : List Schema} : (∀ p ∈ positions, Built p) → Built (.tuple positions)
  | oneOf (members : List String) : Built (.oneOf members)
  | variant {discriminant : String} {branches : List Branch} : branches ≠ [] →
      (∀ b ∈ branches, (b.2.map Prod.fst).Nodup) → (∀ b ∈ branches, ∀ f ∈ b.2, Built f.2) →
      Built (.variant discriminant branches)

theorem Built.fields {fields : List (String × Schema)} (h : Built (.object fields)) :
    (fields.map Prod.fst).Nodup ∧ ∀ f ∈ fields, Built f.2 := by
  cases h with
  | object hnames hfields => exact ⟨hnames, hfields⟩

theorem Built.partialObject {fields : List (String × Schema)} (hnames : (fields.map Prod.fst).Nodup)
    (hfields : ∀ f ∈ fields, Built f.2) : Built (Schema.partialObject fields) := by
  refine .object ?_ ?_
  · simpa [Function.comp_def] using hnames
  · intro f hf
    obtain ⟨g, hg, rfl⟩ := List.mem_map.mp hf
    exact .optional (hfields g hg)

theorem require_eq_ok {place : Place} {operand : Operand} {s : Schema} :
    require place operand = .ok s ↔ operand = .schema s := by
  cases operand <;> simp [require]

/-- Fields are accepted if every key is a text and every operand a schema. -/
theorem requireFields_eq_ok {c : Combinator} {operands : List (Value × Operand)}
    {fields : List (String × Schema)} :
    requireFields c operands = .ok fields ↔
      fields.map (fun f => (Value.str f.1, Argument.schema f.2)) = operands := by
  induction operands generalizing fields with
  | nil =>
      simp only [requireFields, Except.ok.injEq, List.map_eq_nil_iff]
      exact eq_comm
  | cons operand operands ih =>
      obtain ⟨key, operand⟩ := operand
      rw [List.map_eq_cons_iff]
      constructor
      · intro h
        cases key with
        | str name =>
            simp only [requireFields, bind_eq_ok, require_eq_ok, ih, pure_eq_ok] at h
            obtain ⟨s, rfl, rest, hrest, rfl⟩ := h
            exact ⟨(name, s), rest, rfl, rfl, hrest⟩
        | _ =>
            simp only [requireFields, BuildFault.showing] at h
            split at h <;> cases h
      · rintro ⟨f, rest, rfl, hf, hrest⟩
        cases hf
        simp only [requireFields, bind_eq_ok, require_eq_ok, ih, pure_eq_ok]
        exact ⟨f.2, rfl, rest, hrest, rfl⟩

theorem requirePositions_eq_ok {i : Nat} {operands : List Operand} {positions : List Schema} :
    requirePositions i operands = .ok positions ↔ positions.map .schema = operands := by
  induction operands generalizing i positions with
  | nil =>
      simp only [requirePositions, Except.ok.injEq, List.map_eq_nil_iff]
      exact eq_comm
  | cons operand operands ih =>
      simp only [requirePositions, bind_eq_ok, require_eq_ok, ih, pure_eq_ok, List.map_eq_cons_iff]
      constructor
      · rintro ⟨s, rfl, rest, hrest, rfl⟩
        exact ⟨s, rest, rfl, rfl, hrest⟩
      · rintro ⟨s, rest, rfl, rfl, hrest⟩
        exact ⟨s, rfl, rest, hrest, rfl⟩

/-- A branch is accepted if it is a text and an object schema. -/
theorem branchOf_eq_ok {tag operand : Operand} {b : Branch} :
    branchOf tag operand = .ok b ↔ tag = .value (.str b.1) ∧ operand = .schema (.object b.2) := by
  constructor
  · intro h
    cases tag with
    | value v =>
        cases v with
        | str tag =>
            simp only [branchOf, requireBranch, bind_eq_ok, require_eq_ok] at h
            obtain ⟨s, rfl, h⟩ := h
            cases s with
            | object fields =>
                simp only [fields?, pure_eq_ok] at h
                obtain rfl := h
                exact ⟨rfl, rfl⟩
            | _ => cases h
        | _ => cases h
    | _ => cases h
  · rintro ⟨rfl, rfl⟩
    simp only [branchOf, requireBranch, bind_eq_ok, require_eq_ok]
    exact ⟨_, rfl, rfl⟩

theorem mapM_plain?_eq_some {α : Type} {items : List (Argument α)} {values : List Value} :
    items.mapM Argument.plain? = some values ↔ items = values.map .value := by
  induction items generalizing values with
  | nil => cases values <;> simp
  | cons item items ih =>
      cases item with
      | value v =>
          have hcons : (.value v :: items).mapM Argument.plain? =
              (items.mapM Argument.plain?).map (v :: ·) := by
            rw [List.mapM_cons]
            cases items.mapM Argument.plain? <;> rfl
          rw [hcons, Option.map_eq_some_iff]
          cases values with
          | nil => simp
          | cons w values =>
              simp only [ih, List.cons.injEq, exists_eq_right_right, List.map_cons, Argument.value.injEq]
              exact and_comm
      | _ => cases values <;> simp [Argument.plain?]

theorem texts?_eq_some {values : List Value} {names : List String} :
    texts? values = some names ↔ values = names.map .str := by
  induction values generalizing names with
  | nil => simp [texts?, eq_comm]
  | cons v values ih =>
      cases v with
      | str s =>
          cases names with
          | nil => simp [texts?]
          | cons name names =>
              simp only [texts?, Option.map_eq_some_iff, ih, List.cons.injEq, exists_eq_right_right,
                List.map_cons, Value.str.injEq]
              exact and_comm
      | _ => cases names <;> simp [texts?]

theorem split_eq_ok {pair a b : Operand} : pair.split = .ok (a, b) ↔ pair.iterate? = some [a, b] := by
  rw [Argument.split]
  split
  · rename_i x y hitems
    simp [hitems]
  · rename_i items hne hitems
    exact ⟨nofun, fun h => absurd (Option.some.inj (hitems.symm.trans h)) (hne a b)⟩
  · rename_i hitems
    refine ⟨nofun, fun h => ?_⟩
    cases hitems.symm.trans h

/-- Branches are accepted if every pair has a text and an object schema as its items. -/
theorem branchesOf_eq_ok {pairs : List Operand} {branches : List Branch} :
    branchesOf pairs = .ok branches ↔
      pairs.map Argument.iterate? =
        branches.map fun b => some [.value (.str b.1), .schema (.object b.2)] := by
  induction pairs generalizing branches with
  | nil =>
      simp only [branchesOf, Except.ok.injEq, List.map_nil, List.nil_eq, List.map_eq_nil_iff]
  | cons pair pairs ih =>
      simp only [branchesOf, bind_eq_ok, branchOf_eq_ok, ih, pure_eq_ok, Prod.exists, split_eq_ok]
      constructor
      · rintro ⟨tag, operand, hitems, name, fields, ⟨rfl, rfl⟩, rest, hrest, rfl⟩
        rw [List.map_cons, List.map_cons, hitems, hrest]
      · intro h
        cases branches with
        | nil => cases h
        | cons b branches =>
            obtain ⟨hpair, hrest⟩ := List.cons.inj h
            exact ⟨_, _, hpair, b.1, b.2, ⟨rfl, rfl⟩, branches, hrest, rfl⟩

theorem fieldsOf_eq_ok {c : Combinator} {definitions : Operand} {fields : List (String × Schema)} :
    fieldsOf c definitions = .ok fields ↔
      definitions.entries? = some (fields.map fun f => (Value.str f.1, Argument.schema f.2)) := by
  rw [fieldsOf]
  cases definitions.entries? with
  | none => exact ⟨nofun, nofun⟩
  | some entries =>
      rw [Option.some.injEq, eq_comm (a := entries)]
      exact requireFields_eq_ok

/-- Fields whose keys are all different have different names. -/
theorem nodup_names_of_distinctKeys {fields : List (String × Schema)}
    (h : Value.DistinctKeys (fields.map fun f => (Value.str f.1, Argument.schema f.2))) :
    (fields.map Prod.fst).Nodup := by
  rw [Value.DistinctKeys, List.pairwise_map] at h
  rw [List.Nodup, List.pairwise_map]
  refine h.imp fun hne heq => ?_
  rw [heq, Value.sameKey_str.mpr rfl] at hne
  cases hne

end Schema

@[simp] theorem yields_ofExcept {α : Type} {x : Except BuildFault α} {p q : List Log.Record} {a : α} :
    Yields (Build.ofExcept x) p a q ↔ x = .ok a ∧ p = q := by
  change (x, p) = (Except.ok a, q) ↔ _
  simp

/-- Every schema in an operand was built. -/
inductive Operand.Built : Operand → Prop
  | schema {s : Schema} : s.Built → Built (.schema s)
  | value (v : Value) : Built (.value v)
  | list {items : List Operand} : (∀ o ∈ items, Built o) → Built (.list items)
  | tuple {items : List Operand} : (∀ o ∈ items, Built o) → Built (.tuple items)
  | map {entries : List (Value × Operand)} : (∀ e ∈ entries, Built e.2) → Built (.map entries)

theorem Operand.Built.schema_inv {s : Schema} (h : Operand.Built (.schema s)) : s.Built := by
  cases h with
  | schema hschema => exact hschema

theorem Operand.Built.of_iterate? {o : Operand} {items : List Operand} (h : o.Built)
    (hitems : o.iterate? = some items) : ∀ item ∈ items, item.Built := by
  intro item hitem
  cases h with
  | schema => cases hitems
  | value v =>
      obtain ⟨values, -, rfl⟩ := Option.map_eq_some_iff.mp hitems
      obtain ⟨w, -, rfl⟩ := List.mem_map.mp hitem
      exact .value w
  | list hbuilt | tuple hbuilt =>
      cases hitems
      exact hbuilt item hitem
  | map =>
      cases hitems
      obtain ⟨e, -, rfl⟩ := List.mem_map.mp hitem
      exact .value e.1

namespace Schema

/-- Operands two by two are operands that were given. -/
theorem built_of_pairUp? {operands pairs : List Operand}
    (h : pairUp? operands = some pairs) (hbuilt : ∀ o ∈ operands, o.Built) :
    ∀ pair ∈ pairs, pair.Built := by
  induction operands using pairUp?.induct generalizing pairs with
  | case1 =>
      cases h
      simp
  | case2 => cases h
  | case3 tag operand rest ih =>
      obtain ⟨others, hothers, rfl⟩ := Option.map_eq_some_iff.mp h
      refine List.forall_mem_cons.mpr ⟨.tuple ?_, ih hothers fun o ho => hbuilt o (by simp [ho])⟩
      intro o ho
      exact hbuilt o (List.mem_append_left rest ho)

theorem built_fields {c : Combinator} {definitions : Operand} {fields : List (String × Schema)}
    (hbuilt : definitions.Built) (h : fieldsOf c definitions = .ok fields) :
    (fields.map Prod.fst).Nodup ∧ ∀ f ∈ fields, f.2.Built := by
  have hentries := fieldsOf_eq_ok.mp h
  cases hbuilt with
  | schema | list | tuple => cases hentries
  | value v =>
      -- a map of plain values declares no field
      cases v with
      | map entries =>
          cases fields with
          | nil => simp
          | cons f fields =>
              obtain ⟨e, -, -, heq, -⟩ := List.map_eq_cons_iff.mp (Option.some.inj hentries)
              cases (Prod.ext_iff.mp heq).2
      | _ => cases hentries
  | @map entries hbuilt =>
      have heq : Value.distinct entries = _ := Option.some.inj hentries
      have hdistinct := Value.forall_distinct (P := fun _ => True) fun e he => ⟨trivial, hbuilt e he⟩
      refine ⟨nodup_names_of_distinctKeys (heq ▸ Value.distinctKeys_distinct entries), ?_⟩
      intro f hf
      exact (hdistinct (.str f.1, .schema f.2) (heq ▸ List.mem_map_of_mem hf)).2.schema_inv

theorem built_variant {discriminant : String} {pairs : List Operand} {p q : List Log.Record}
    {s : Schema} (hbuilt : ∀ pair ∈ pairs, pair.Built) (h : Yields (buildVariant discriminant pairs) p s q) :
    s.Built := by
  simp only [buildVariant, yields_bind, yields_ofExcept, yields_modify, yields_pure,
    branchesOf_eq_ok, variantOf] at h
  obtain ⟨branches, _, ⟨hpairs, -⟩, s, _, ⟨hs, -⟩, -, -, -, rfl, -⟩ := h
  split at hs
  · cases hs
  · rename_i hne
    obtain rfl := Except.ok.inj hs
    have hobject : ∀ b ∈ branches, (object b.2).Built := by
      intro b hb
      obtain ⟨pair, hpair, hitems⟩ := List.mem_map.mp (hpairs ▸ List.mem_map_of_mem hb)
      exact ((hbuilt pair hpair).of_iterate? hitems (.schema (.object b.2)) (by simp)).schema_inv
    exact .variant (by simpa using hne) (fun b hb => (hobject b hb).fields.1)
      (fun b hb => (hobject b hb).fields.2)

end Schema

namespace Expr

mutual

/-- Whatever an expression builds is put together by combinators. -/
theorem built_of_build : ∀ (e : Expr) {p q : List Log.Record} {s : Schema},
    Yields (build e) p s q → s.Built
  | .scalar kind, _, _, _, h => by
      simp only [build, yields_pure] at h
      exact h.1 ▸ .scalar kind
  | .optional inner, _, _, _, h => by
      simp only [build, yields_bind, yields_ofExcept, Schema.require_eq_ok, yields_pure] at h
      obtain ⟨_, _, hoperand, t, _, ⟨rfl, -⟩, rfl, -⟩ := h
      exact .optional (built_of_buildArgument inner hoperand).schema_inv
  | .nullable inner, _, _, _, h => by
      simp only [build, yields_bind, yields_ofExcept, Schema.require_eq_ok, yields_pure] at h
      obtain ⟨_, _, hoperand, t, _, ⟨rfl, -⟩, rfl, -⟩ := h
      exact .nullable (built_of_buildArgument inner hoperand).schema_inv
  | .array item, _, _, _, h => by
      simp only [build, yields_bind, yields_ofExcept, Schema.require_eq_ok, yields_pure] at h
      obtain ⟨_, _, hoperand, t, _, ⟨rfl, -⟩, rfl, -⟩ := h
      exact .array (built_of_buildArgument item hoperand).schema_inv
  | .object definitions, _, _, _, h => by
      simp only [build, yields_bind, yields_ofExcept, yields_pure] at h
      obtain ⟨_, _, hoperand, _, _, ⟨hfields, -⟩, rfl, -⟩ := h
      obtain ⟨hnames, hbuilt⟩ := Schema.built_fields (built_of_buildArgument definitions hoperand) hfields
      exact .object hnames hbuilt
  | .partialObject definitions, _, _, _, h => by
      simp only [build, yields_bind, yields_ofExcept, yields_pure] at h
      obtain ⟨_, _, hoperand, _, _, ⟨hfields, -⟩, rfl, -⟩ := h
      obtain ⟨hnames, hbuilt⟩ := Schema.built_fields (built_of_buildArgument definitions hoperand) hfields
      exact .partialObject hnames hbuilt
  | .tuple positions, _, _, _, h => by
      simp only [build, yields_bind, yields_ofExcept, yields_pure, Schema.requirePositions_eq_ok] at h
      obtain ⟨_, _, hoperands, ps, _, ⟨rfl, -⟩, rfl, -⟩ := h
      refine .tuple fun p hp => ?_
      exact (built_of_buildArguments positions hoperands (.schema p) (List.mem_map_of_mem hp)).schema_inv
  | .oneOf members, _, _, _, h => by
      simp only [build, yields_bind, yields_ofExcept, yields_pure] at h
      obtain ⟨_, _, -, names, _, -, rfl, -⟩ := h
      exact .oneOf names
  | .variant discriminant arguments, _, _, _, h => by
      simp only [build, yields_bind] at h
      obtain ⟨operands, _, hoperands, h⟩ := h
      split at h
      · rename_i pairs hpairs
        refine Schema.built_variant ?_ h
        exact Schema.built_of_pairUp? hpairs (built_of_buildArguments arguments hoperands)
      · exact absurd h yields_throw
  | .variantOf discriminant pairs, _, _, _, h => by
      simp only [build, yields_bind] at h
      obtain ⟨operand, _, hoperand, h⟩ := h
      split at h
      · rename_i items hitems
        exact Schema.built_variant ((built_of_buildArgument pairs hoperand).of_iterate? hitems) h
      · exact absurd h yields_throw
  | .unknown name, _, _, _, h => by
      simp only [build, yields_throw] at h

theorem built_of_buildArgument : ∀ (a : Argument Expr) {p q : List Log.Record} {o : Operand},
    Yields (buildArgument a) p o q → o.Built
  | .schema e, _, _, _, h => by
      simp only [buildArgument, yields_bind, yields_pure] at h
      obtain ⟨s, _, hs, rfl, -⟩ := h
      exact .schema (built_of_build e hs)
  | .value v, _, _, _, h => by
      simp only [buildArgument, yields_pure] at h
      exact h.1 ▸ .value v
  | .list items, _, _, _, h => by
      simp only [buildArgument, yields_bind, yields_pure] at h
      obtain ⟨operands, _, hoperands, rfl, -⟩ := h
      exact .list (built_of_buildArguments items hoperands)
  | .tuple items, _, _, _, h => by
      simp only [buildArgument, yields_bind, yields_pure] at h
      obtain ⟨operands, _, hoperands, rfl, -⟩ := h
      exact .tuple (built_of_buildArguments items hoperands)
  | .map entries, _, _, _, h => by
      simp only [buildArgument, yields_bind, yields_pure] at h
      obtain ⟨operands, _, hoperands, rfl, -⟩ := h
      exact .map (built_of_buildEntries entries hoperands)

theorem built_of_buildArguments : ∀ (arguments : List (Argument Expr)) {p q : List Log.Record}
    {operands : List Operand}, Yields (buildArguments arguments) p operands q →
      ∀ o ∈ operands, o.Built
  | [], _, _, _, h => by
      simp only [buildArguments, yields_pure] at h
      simp [← h.1]
  | a :: arguments, _, _, _, h => by
      simp only [buildArguments, yields_bind, yields_pure] at h
      obtain ⟨o, _, ho, rest, _, hrest, rfl, -⟩ := h
      exact List.forall_mem_cons.mpr
        ⟨built_of_buildArgument a ho, built_of_buildArguments arguments hrest⟩

theorem built_of_buildEntries : ∀ (entries : List (Value × Argument Expr)) {p q : List Log.Record}
    {operands : List (Value × Operand)}, Yields (buildEntries entries) p operands q →
      ∀ o ∈ operands, o.2.Built
  | [], _, _, _, h => by
      simp only [buildEntries, yields_pure] at h
      simp [← h.1]
  | (key, a) :: entries, _, _, _, h => by
      simp only [buildEntries, yields_bind, yields_pure] at h
      obtain ⟨o, _, ho, rest, _, hrest, rfl, -⟩ := h
      exact List.forall_mem_cons.mpr
        ⟨built_of_buildArgument a ho, built_of_buildEntries entries hrest⟩

end

theorem built_of_schema {e : Expr} {s : Schema} (h : e.schema.1 = .ok s) : s.Built :=
  built_of_build e (p := []) (q := e.schema.2) (Prod.ext h rfl)

end Expr
end Wireform
