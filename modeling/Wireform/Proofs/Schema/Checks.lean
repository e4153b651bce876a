import Wireform.Proofs.Schema.Argument
import Mathlib.Data.Set.List

/-!
# Checks that decide

Each check of a combinator succeeds exactly on the arguments that fit, and a check that fails tells that the
definition is wrong, or that an argument cannot be gone through.
-/
namespace Wireform

/-- The fault tells what is wrong with a definition. -/
def BuildFault.IsDefinition (fault : BuildFault) : Prop :=
  ∃ reason, fault = .definition reason

theorem BuildFault.isDefinition_definition (reason : DefinitionFault) :
    (BuildFault.definition reason).IsDefinition :=
  ⟨reason, rfl⟩

theorem BuildFault.isDefinition_showing {part : Option String} (h : part ≠ none)
    (fault : String → DefinitionFault) : (showing part fault).IsDefinition := by
  cases part with
  | none => exact absurd rfl h
  | some text => exact ⟨fault text, rfl⟩

section

variable {α β : Type} {P Q : Prop} {K : BuildFault → Prop}

/-- The check succeeds exactly if `P` holds, and what it fails with is of the kind `K`. -/
def Decides (P : Prop) (K : BuildFault → Prop) : Except BuildFault α → Prop
  | .ok _ => P
  | .error fault => ¬ P ∧ K fault

theorem Decides.congr {x : Except BuildFault α} (h : Decides P K x) (hPQ : P ↔ Q) : Decides Q K x := by
  cases x with
  | ok a => exact hPQ.mp h
  | error fault => exact ⟨fun hQ => h.1 (hPQ.mpr hQ), h.2⟩

/-- The first of two checks has to succeed for the whole to hold, and then the second one decides. -/
theorem Decides.bind {x : Except BuildFault α} {f : α → Except BuildFault β} (hx : Decides P K x)
    (hneeded : Q → P) (hf : ∀ a, x = .ok a → P → Decides Q K (f a)) : Decides Q K (x >>= f) := by
  cases x with
  | ok a => exact hf a rfl hx
  | error fault => exact ⟨fun hQ => hx.1 (hneeded hQ), hx.2⟩

theorem Decides.map {x : Except BuildFault α} (hx : Decides P K x) (f : α → β) :
    Decides P K (x >>= fun a => pure (f a)) :=
  hx.bind id fun _ _ hP => hP

end

namespace Schema

theorem decides_require (place : Place) (o : Operand) :
    Decides o.IsSchema BuildFault.IsDefinition (require place o) := by
  cases o with
  | schema s => trivial
  | _ => exact ⟨id, BuildFault.isDefinition_definition _⟩

theorem decides_requireFields (c : Combinator) {entries : List (Value × Operand)}
    (hshort : ∀ e ∈ entries, ¬ e.1.HoldsLong) :
    Decides (∀ e ∈ entries, e.1.isText = true ∧ e.2.IsSchema) BuildFault.IsDefinition
      (requireFields c entries) := by
  induction entries with
  | nil => exact List.forall_mem_nil _
  | cons e entries ih =>
      obtain ⟨key, o⟩ := e
      rw [List.forall_mem_cons] at hshort ⊢
      cases key with
      | str name =>
          refine (decides_require (.field c name) o).bind (fun hfit => hfit.1.2) ?_
          intro s _ hschema
          refine ((ih hshort.2).congr ?_).map ((name, s) :: ·)
          exact ⟨fun hfit => ⟨⟨rfl, hschema⟩, hfit⟩, And.right⟩
      | _ =>
          refine ⟨fun hfit => absurd hfit.1.1 Bool.false_ne_true, ?_⟩
          apply BuildFault.isDefinition_showing
          exact fun hnone => hshort.1 ((Value.written?_eq_none _).mp hnone)

theorem decides_fieldsOf (c : Combinator) {definitions : Operand} (hshort : definitions.Short) :
    Decides definitions.FieldsFit BuildFault.IsDefinition (fieldsOf c definitions) := by
  rw [fieldsOf, Argument.FieldsFit]
  cases hentries : definitions.entries? with
  | none =>
      refine ⟨?_, BuildFault.isDefinition_definition _⟩
      rintro ⟨entries, hsome, -⟩
      cases hsome
  | some entries =>
      refine (decides_requireFields c (hshort.of_entries? hentries)).congr ?_
      simp

theorem decides_requirePositions (i : Nat) (operands : List Operand) :
    Decides (∀ o ∈ operands, o.IsSchema) BuildFault.IsDefinition (requirePositions i operands) := by
  induction operands generalizing i with
  | nil => exact List.forall_mem_nil _
  | cons o operands ih =>
      rw [List.forall_mem_cons]
      refine (decides_require (.position i) o).bind And.left ?_
      intro s _ hschema
      exact ((ih (i + 1)).congr (and_iff_right hschema).symm).map (s :: ·)

/-! ### Members -/

end Schema

/-- The fault of what does not fit where items are expected: something without items is told apart from something
with wrong items. -/
def Argument.WalkFault {α : Type} (a : Argument α) (fault : BuildFault) : Prop :=
  a.iterate? = none ∧ fault = .notIterable ∨ a.iterate? ≠ none ∧ fault.IsDefinition

namespace Schema

theorem requireMembers_of_not_iterable {members : Operand} (h : members.iterate? = none) :
    requireMembers members = .error .notIterable := by
  cases members with
  | value v =>
      cases v with
      | str s => cases h
      | _ => simp only [requireMembers, h]
  | _ => simp only [requireMembers, h]

theorem requireMembers_of_items {members : Operand} {items : List Operand} (htext : ¬ members.IsText)
    (h : members.iterate? = some items) :
    requireMembers members =
      ((items.mapM Argument.plain?).bind texts?).elim (.error (.definition .memberNotText)) .ok := by
  cases members with
  | value v =>
      cases v with
      | str s => exact absurd ⟨s, rfl⟩ htext
      | _ =>
          simp only [requireMembers, h]
          cases (items.mapM Argument.plain?).bind texts? <;> rfl
  | _ =>
      simp only [requireMembers, h]
      cases (items.mapM Argument.plain?).bind texts? <;> rfl

theorem texts?_of_plain {items : List Operand} {names : List String} :
    (items.mapM Argument.plain?).bind texts? = some names ↔
      items = names.map fun name => .value (.str name) := by
  simp [Option.bind_eq_some_iff, mapM_plain?_eq_some, texts?_eq_some, Function.comp_def]

theorem decides_requireMembers (members : Operand) :
    Decides members.MembersFit members.WalkFault (requireMembers members) := by
  cases hitems : members.iterate? with
  | none =>
      rw [requireMembers_of_not_iterable hitems]
      refine ⟨?_, .inl ⟨hitems, rfl⟩⟩
      rintro ⟨-, items, hsome, -⟩
      cases hitems.symm.trans hsome
  | some items =>
      have hdefinition (fault : DefinitionFault) : members.WalkFault (.definition fault) :=
        .inr ⟨by simp [hitems], fault, rfl⟩
      by_cases htext : members.IsText
      · obtain ⟨s, rfl⟩ := htext
        exact ⟨fun hfit => hfit.1 ⟨s, rfl⟩, hdefinition _⟩
      · rw [requireMembers_of_items htext hitems]
        cases hnames : (items.mapM Argument.plain?).bind texts? with
        | none =>
            refine ⟨?_, hdefinition _⟩
            rintro ⟨-, others, hsome, hothers⟩
            obtain rfl := Option.some.inj (hitems.symm.trans hsome)
            have hrange : items ∈ Set.range (List.map fun name => Argument.value (.str name)) := by
              rw [Set.range_list_map]
              exact fun item hitem => (hothers item hitem).imp fun _ => Eq.symm
            obtain ⟨names, rfl⟩ := hrange
            cases hnames.symm.trans (texts?_of_plain.mpr rfl)
        | some names =>
            refine ⟨htext, items, hitems, fun item hitem => ?_⟩
            rw [texts?_of_plain.mp hnames] at hitem
            obtain ⟨name, -, rfl⟩ := List.mem_map.mp hitem
            exact ⟨name, rfl⟩

/-! ### Pairs -/

theorem fields?_isSome (s : Schema) : s.fields?.isSome ↔ s.container = .object := by
  cases s <;> simp [fields?, container]

theorem decides_branchOf {tag operand : Operand} (hshort : tag.Short) :
    Decides (∃ name s, tag = .value (.str name) ∧ operand = .schema s ∧ s.container = .object)
      BuildFault.IsDefinition (branchOf tag operand) := by
  by_cases htag : tag.IsText
  · obtain ⟨name, rfl⟩ := htag
    refine (decides_require (.branch name) operand).bind ?_ ?_
    · rintro ⟨_, s, -, rfl, -⟩
      trivial
    · intro s hs _
      obtain rfl := require_eq_ok.mp hs
      have hfit : (∃ text t, (Argument.value (.str name) : Operand) = .value (.str text) ∧
          Argument.schema s = .schema t ∧ t.container = .object) ↔ s.fields?.isSome := by
        rw [fields?_isSome]
        constructor
        · rintro ⟨_, _, -, heq, h⟩
          exact Argument.schema.inj heq ▸ h
        · exact fun h => ⟨name, s, rfl, rfl, h⟩
      cases hfields : s.fields? with
      | some fields => exact hfit.mpr (by rw [hfields]; rfl)
      | none => exact ⟨fun h => absurd (hfit.mp h) (by simp [hfields]), _, rfl⟩
  · have hfault : branchOf tag operand = .error (.showing tag.written? .tagNotText) := by
      cases tag with
      | value v =>
          cases v with
          | str name => exact absurd ⟨name, rfl⟩ htag
          | _ => rfl
      | _ => rfl
    rw [hfault]
    refine ⟨?_, BuildFault.isDefinition_showing (Argument.written?_ne_none tag hshort) _⟩
    rintro ⟨name, -, rfl, -⟩
    exact htag ⟨name, rfl⟩

theorem decides_branchOf_split {pair : Operand} (hshort : pair.Short) :
    Decides (pair.IsPair container) BuildFault.IsDefinition
      (pair.split >>= fun parts => branchOf parts.1 parts.2) := by
  have hshown := Argument.written?_ne_none pair hshort
  rw [Argument.split, Argument.IsPair]
  split
  · rename_i a b hitems
    refine (decides_branchOf (hshort.of_iterate? hitems a List.mem_cons_self)).congr ?_
    simp only [hitems, Option.some.injEq, List.cons.injEq, and_true, and_assoc]
  · rename_i items hne hitems
    refine ⟨?_, BuildFault.isDefinition_showing hshown _⟩
    rintro ⟨tag, s, htwo, -⟩
    exact hne _ _ (Option.some.inj (hitems.symm.trans htwo))
  · rename_i hitems
    refine ⟨?_, BuildFault.isDefinition_showing hshown _⟩
    rintro ⟨tag, s, htwo, -⟩
    cases hitems.symm.trans htwo

theorem decides_branchesOf {pairs : List Operand} (hshort : ∀ pair ∈ pairs, pair.Short) :
    Decides (∀ pair ∈ pairs, pair.IsPair container) BuildFault.IsDefinition (branchesOf pairs) := by
  induction pairs with
  | nil => exact List.forall_mem_nil _
  | cons pair pairs ih =>
      rw [List.forall_mem_cons] at hshort ⊢
      have hcons : branchesOf (pair :: pairs) = (pair.split >>= fun parts => branchOf parts.1 parts.2) >>=
          fun branch => branchesOf pairs >>= fun branches => pure (branch :: branches) := by
        rw [branchesOf]
        cases pair.split <;> rfl
      rw [hcons]
      refine (decides_branchOf_split hshort.1).bind And.left ?_
      intro branch _ hfit
      exact ((ih hshort.2).congr (and_iff_right hfit).symm).map (branch :: ·)

theorem decides_variantOf (discriminant : String) {pairs : List Operand}
    (hshort : ∀ pair ∈ pairs, pair.Short) :
    Decides (pairs ≠ [] ∧ ∀ pair ∈ pairs, pair.IsPair container) BuildFault.IsDefinition
      (branchesOf pairs >>= fun branches => variantOf discriminant branches) := by
  refine (decides_branchesOf hshort).bind And.right ?_
  intro branches hbranches hfit
  have hlength : pairs.length = branches.length := by
    simpa using congrArg List.length (branchesOf_eq_ok.mp hbranches)
  have hempty : branches.isEmpty = true ↔ pairs = [] := by
    rw [List.isEmpty_iff, ← List.length_eq_zero_iff, ← hlength, List.length_eq_zero_iff]
  rw [variantOf]
  split
  · rename_i hnone
    exact ⟨fun h => h.1 (hempty.mp hnone), BuildFault.isDefinition_definition _⟩
  · rename_i hsome
    exact ⟨fun hnil => hsome (hempty.mpr hnil), hfit⟩

end Schema

/-- Operands that come in twos are paired up, and no others. -/
theorem Schema.pairUp?_eq_some : ∀ {operands paired : List Operand},
    pairUp? operands = some paired ↔
      ∃ pairs, operands = Argument.alternating pairs ∧ paired = pairs.map fun pair => .tuple [pair.1, pair.2]
  | [], paired => by
      constructor
      · rintro ⟨⟩
        exact ⟨[], rfl, rfl⟩
      · rintro ⟨pairs, hpairs, rfl⟩
        obtain rfl : pairs = [] := Argument.alternating_injective hpairs.symm
        rfl
  | [o], paired => by
      refine ⟨nofun, ?_⟩
      rintro ⟨pairs, hpairs, -⟩
      cases pairs <;> cases hpairs
  | a :: b :: operands, paired => by
      rw [pairUp?, Option.map_eq_some_iff]
      constructor
      · rintro ⟨rest, hrest, rfl⟩
        obtain ⟨pairs, rfl, rfl⟩ := pairUp?_eq_some.mp hrest
        exact ⟨(a, b) :: pairs, rfl, rfl⟩
      · rintro ⟨pairs, hpairs, rfl⟩
        cases pairs with
        | nil => cases hpairs
        | cons pair pairs =>
            obtain ⟨hfirst, htail⟩ := List.cons.inj hpairs
            obtain ⟨hsecond, hrest⟩ := List.cons.inj htail
            refine ⟨_, pairUp?_eq_some.mpr ⟨pairs, hrest, rfl⟩, ?_⟩
            rw [List.map_cons, ← hfirst, ← hsecond]

end Wireform
