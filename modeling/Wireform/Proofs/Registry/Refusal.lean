import Wireform.Proofs.Registry.Attempt

/-!
# Refused definitions

What it means that a definition is not built. A name is not built if its reference fails. A combinator is not
built if one of the definitions in its argument is not, after those before it were, or if it refuses the
argument itself. Anything else is refused as a whole. This is all that later modules need to know about the
faults of the builder.
-/
namespace Wireform.Registry

variable {p : Progress} {fault : LoadFault}

@[simp] theorem fails_needed {text : Option String} :
    Fails (needed text) p fault ↔ text = none ∧ fault = .numberTooLong := by
  cases text <;> simp [needed, eq_comm]

theorem not_fails_report {records : List Log.Record} : ¬ Fails (report records) p fault :=
  fails_modify

/-- A check that answers is refused by a fault of a definition only. -/
theorem fails_checked {α : Type} {location : Location} {x : Except BuildFault α} (hx : Answers x) :
    Fails (checked location x) p fault ↔
      ∃ f, x = .error (.definition f) ∧ fault = .broken location (.definition f) := by
  cases hx <;> simp [checked, eq_comm]

variable {reference : Lookup} {location inside : Location}

/-- `Stops reference ps p fault`: of the definitions `ps` one is not built, after those before it were. -/
inductive Stops (reference : Lookup) : List (Location × Value) → Progress → LoadFault → Prop
  | here {place : Location × Value} {ps : List (Location × Value)} {p : Progress} {fault : LoadFault} :
      Fails (build reference place.1 place.2) p fault → Stops reference (place :: ps) p fault
  | later {place : Location × Value} {ps : List (Location × Value)} {s : Schema} {p r : Progress}
      {fault : LoadFault} : Yields (build reference place.1 place.2) p s r → Stops reference ps r fault →
      Stops reference (place :: ps) p fault

theorem Stops.exists {ps : List (Location × Value)} (h : Stops reference ps p fault) :
    ∃ place ∈ ps, ∃ q, Fails (build reference place.1 place.2) q fault := by
  induction h with
  | here h => exact ⟨_, List.mem_cons_self, _, h⟩
  | later _ _ ih =>
      obtain ⟨place, hplace, q, h⟩ := ih
      exact ⟨place, List.mem_cons_of_mem _ hplace, q, h⟩

/-- `Reaches reference inside entries p e r`: building the entries before `e` leads from `p` to `r`. -/
def Reaches (reference : Lookup) (inside : Location) (entries : List (Value × Value)) (p : Progress)
    (e : Value × Value) (r : Progress) : Prop :=
  ∃ before after ss, entries = before ++ e :: after ∧ Through reference (keyPlaces inside before) p ss r

section

variable {entries : List (Value × Value)} {e : Value × Value} {r : Progress}

theorem Reaches.mem (h : Reaches reference inside entries p e r) : e ∈ entries := by
  obtain ⟨before, after, _, rfl, -⟩ := h
  simp

theorem Reaches.head : Reaches reference inside (e :: entries) p e p :=
  ⟨[], entries, [], rfl, .nil p⟩

theorem Reaches.tail {key d : Value} {name : String} {s : Schema} {q : Progress}
    (hname : key.text? = some name) (hs : Yields (build reference (inside.step (.key name)) d) p s q)
    (h : Reaches reference inside entries q e r) :
    Reaches reference inside ((key, d) :: entries) p e r := by
  obtain ⟨before, after, ss, rfl, hthrough⟩ := h
  refine ⟨(key, d) :: before, after, s :: ss, rfl, .cons ?_ hthrough⟩
  rw [hname]
  exact hs

end

/-- What a combinator refuses of an argument, although the definitions inside may be built. -/
inductive Refuses (reference : Lookup) (location : Location) :
    Combinator → Value → Progress → LoadFault → Prop
  | fields {c : Combinator} {argument : Value} {p : Progress} : c = .object ∨ c = .partialObject →
      (∀ entries, argument ≠ .map entries) →
      Refuses reference location c argument p (.broken (location.step (.combinator c)) .fieldsNotMap)
  | positions {argument : Value} {p : Progress} : (∀ items, argument ≠ .list items) →
      Refuses reference location .tuple argument p
        (.broken (location.step (.combinator .tuple)) .positionsNotList)
  | members {argument : Value} {p : Progress} : (∀ items, argument ≠ .list items) →
      (∀ entries, argument ≠ .map entries) →
      Refuses reference location .oneOf argument p
        (.broken (location.step (.combinator .oneOf)) .membersNotCollection)
  | member {argument : Value} {p : Progress} :
      (∃ items, argument = .list items) ∨ (∃ entries, argument = .map entries) →
      ¬ Accepts .oneOf argument →
      Refuses reference location .oneOf argument p (.broken location (.definition .memberNotText))
  | branches {argument : Value} {p : Progress} : (∀ entries, argument ≠ .map entries) →
      Refuses reference location .variant argument p
        (.broken (location.step (.combinator .variant)) .branchesNotMap)
  | noBranches {p : Progress} :
      Refuses reference location .variant (.map []) p (.broken location (.definition .noBranches))
  /-- A branch that is built and is no object. -/
  | branch {entries : List (Value × Value)} {e : Value × Value} {tag : String} {s : Schema}
      {p r q : Progress} :
      Reaches reference (location.step (.combinator .variant)) entries p e r → e.1.text? = some tag →
      Yields (build reference ((location.step (.combinator .variant)).step (.key tag)) e.2) r s q →
      s.fields? = none →
      Refuses reference location .variant (.map entries) p
        (.broken location (.definition (.branchNotObject tag s.container)))
  /-- A key without a text. -/
  | key {c : Combinator} {entries : List (Value × Value)} {e : Value × Value} {p r : Progress} :
      c = .object ∨ c = .partialObject ∨ c = .variant →
      Reaches reference (location.step (.combinator c)) entries p e r → e.1.text? = none →
      Refuses reference location c (.map entries) p .numberTooLong

theorem fails_buildPositions {i : Nat} {items : List Value} :
    Fails (buildPositions reference inside i items) p fault ↔
      Stops reference (indexPlaces inside i items) p fault := by
  induction items generalizing i p with
  | nil =>
      simp only [buildPositions, fails_pure, indexPlaces, List.zipIdx_nil, List.map_nil, false_iff]
      rintro ⟨⟩
  | cons d items ih =>
      simp only [buildPositions, fails_bind, fails_pure, and_false, exists_false, or_false, ih, indexPlaces,
        List.zipIdx_cons, List.map_cons]
      constructor
      · rintro (h | ⟨s, r, hs, h⟩)
        · exact .here h
        · exact .later hs h
      · intro h
        cases h with
        | here h => exact .inl h
        | later hs h => exact .inr ⟨_, _, hs, h⟩

/-- Fields are not built if a definition among them is not, or if a key has no text. -/
theorem fails_buildFields {found : List (String × Schema)} {entries : List (Value × Value)}
    (h : Fails (buildFields reference inside found entries) p fault) :
    Stops reference (keyPlaces inside entries) p fault ∨
      ∃ e r, Reaches reference inside entries p e r ∧ e.1.text? = none ∧ fault = .numberTooLong := by
  induction entries generalizing found p with
  | nil => exact absurd h fails_pure
  | cons e entries ih =>
      obtain ⟨key, d⟩ := e
      simp only [buildFields, fails_bind, fails_needed, yields_needed] at h
      rcases h with ⟨hkey, rfl⟩ | ⟨name, _, ⟨hname, rfl⟩, h | ⟨s, q, hs, h⟩⟩
      · exact .inr ⟨_, p, .head, hkey, rfl⟩
      · refine .inl (.here ?_)
        simpa [hname] using h
      · rcases ih h with hstops | ⟨e, r, hreaches, hkey⟩
        · refine .inl (.later (s := s) (r := q) ?_ hstops)
          simpa [hname] using hs
        · exact .inr ⟨e, r, hreaches.tail hname hs, hkey⟩

theorem requireBranch_eq_error {tag : String} {s : Schema} {f : DefinitionFault}
    (h : Schema.requireBranch tag (.schema s) = .error (.definition f)) :
    s.fields? = none ∧ f = .branchNotObject tag s.container := by
  cases s with
  | object fields => cases h
  | _ =>
      cases h
      exact ⟨rfl, rfl⟩

/-- Branches are not built if a definition among them is not, if a key has no text, or if a branch is no
object. -/
theorem fails_buildBranches {entries : List (Value × Value)}
    (h : Fails (buildBranches reference location inside entries) p fault) :
    Stops reference (keyPlaces inside entries) p fault ∨
      ∃ e r, Reaches reference inside entries p e r ∧
        (e.1.text? = none ∧ fault = .numberTooLong ∨
          ∃ tag s q, e.1.text? = some tag ∧ Yields (build reference (inside.step (.key tag)) e.2) r s q ∧
            s.fields? = none ∧ fault = .broken location (.definition (.branchNotObject tag s.container))) := by
  induction entries generalizing p with
  | nil => exact absurd h fails_pure
  | cons e entries ih =>
      obtain ⟨key, d⟩ := e
      simp only [buildBranches, fails_bind, fails_needed, yields_needed, yields_checked, fails_pure,
        fails_checked (answers_requireBranch _ _), and_false, exists_false, or_false] at h
      rcases h with ⟨hkey, rfl⟩ | ⟨tag, _, ⟨htag, rfl⟩, hdefinition | ⟨s, q, hs, hbranch⟩⟩
      · exact .inr ⟨_, p, .head, .inl ⟨hkey, rfl⟩⟩
      · refine .inl (.here ?_)
        simpa [htag] using hdefinition
      · rcases hbranch with ⟨f, hf, rfl⟩ | ⟨b, _, ⟨-, rfl⟩, hentries⟩
        · obtain ⟨hfields, rfl⟩ := requireBranch_eq_error hf
          exact .inr ⟨_, p, .head, .inr ⟨tag, s, q, htag, hs, hfields, rfl⟩⟩
        · rcases ih hentries with hstops | ⟨e, r, hreaches, hrest⟩
          · refine .inl (.later (s := s) (r := q) ?_ hstops)
            simpa [htag] using hs
          · exact .inr ⟨e, r, hreaches.tail htag hs, hrest⟩

/-- Members are refused if they are not listed, or if not all of them are texts. -/
theorem fails_membersOf {argument : Value}
    (h : Fails (membersOf location (location.step (.combinator .oneOf)) argument) p fault) :
    Refuses reference location .oneOf argument p fault := by
  have hmember {v : Value} {values : List Value} (htext : ∀ s, v ≠ .str s) (hvalues : v.iterate? = some values)
      {f : DefinitionFault} (hf : Schema.requireMembers (.value v) = .error (.definition f)) :
      Schema.texts? values = none ∧ f = .memberNotText := by
    rw [requireMembers_of_iterate? htext hvalues] at hf
    cases hnames : Schema.texts? values with
    | some members =>
        rw [hnames] at hf
        cases hf
    | none =>
        rw [hnames] at hf
        cases hf
        exact ⟨rfl, rfl⟩
  cases argument with
  | list items =>
      obtain ⟨f, hf, rfl⟩ := (fails_checked (answers_requireMembers (by simp) rfl)).mp h
      obtain ⟨hnone, rfl⟩ := hmember (by simp) rfl hf
      refine .member (.inl ⟨items, rfl⟩) fun haccepts => ?_
      obtain ⟨names, hnames⟩ := exists_texts haccepts
      rw [hnone] at hnames
      cases hnames
  | map entries =>
      obtain ⟨f, hf, rfl⟩ := (fails_checked (answers_requireMembers (by simp) rfl)).mp h
      obtain ⟨hnone, rfl⟩ := hmember (by simp) rfl hf
      refine .member (.inr ⟨entries, rfl⟩) fun haccepts => ?_
      obtain ⟨names, hnames⟩ := exists_texts (List.forall_mem_map.mpr haccepts)
      rw [hnone] at hnames
      cases hnames
  | _ =>
      obtain rfl := fails_throw.mp h
      exact .members (by simp) (by simp)

theorem fails_fieldsOf {c : Combinator} (hc : c = .object ∨ c = .partialObject) {argument : Value}
    (h : Fails (fieldsOf reference (location.step (.combinator c)) argument) p fault) :
    Stops reference (places location c argument) p fault ∨
      Refuses reference location c argument p fault := by
  cases argument with
  | map entries =>
      rcases fails_buildFields h with hstops | ⟨e, r, hreaches, hkey, rfl⟩
      · refine .inl ?_
        rcases hc with rfl | rfl <;> exact hstops
      · exact .inr (.key (hc.imp_right .inl) hreaches hkey)
  | _ =>
      obtain rfl := fails_throw.mp h
      exact .inr (.fields hc (by simp))

theorem fails_branchesOf {argument : Value}
    (h : Fails (branchesOf reference location (location.step (.combinator .variant)) argument) p fault) :
    Stops reference (places location .variant argument) p fault ∨
      Refuses reference location .variant argument p fault := by
  cases argument with
  | map entries =>
      rcases fails_buildBranches h with
        hstops | ⟨e, r, hreaches, ⟨hkey, rfl⟩ | ⟨tag, s, q, htag, hs, hfields, rfl⟩⟩
      · exact .inl hstops
      · exact .inr (.key (.inr (.inr rfl)) hreaches hkey)
      · exact .inr (.branch hreaches htag hs hfields)
  | _ =>
      obtain rfl := fails_throw.mp h
      exact .inr (.branches (by simp))

theorem fails_positionsOf {argument : Value}
    (h : Fails (positionsOf reference (location.step (.combinator .tuple)) argument) p fault) :
    Stops reference (places location .tuple argument) p fault ∨
      Refuses reference location .tuple argument p fault := by
  cases argument with
  | list items => exact .inl (fails_buildPositions.mp h)
  | _ =>
      obtain rfl := fails_throw.mp h
      exact .inr (.positions (by simp))

theorem combinator_name (location : Location) (c : Combinator) :
    combinator location (.str c.name) = pure c := by
  simp only [combinator, Combinator.ofName?_name]

/-- A variant is not built if its branches are not, or if it has none. -/
theorem fails_build_variant {argument : Value}
    (h : Fails (build reference location (combined .variant argument)) p fault) :
    Fails (branchesOf reference location (location.step (.combinator .variant)) argument) p fault ∨
      argument = .map [] ∧ fault = .broken location (.definition .noBranches) := by
  rw [combined, build, combinator_name, pure_bind] at h
  simp only [fails_bind, fails_pure, not_fails_report, fails_checked (answers_variantOf _ _), and_false,
    exists_false, or_false] at h
  rcases h with h | ⟨branches, r, hbranches, f, hf, rfl⟩
  · exact .inl h
  · obtain ⟨entries, rfl, hnames, -⟩ := yields_branchesOf.mp hbranches
    cases branches with
    | cons b branches => cases hf
    | nil =>
        obtain rfl := List.map_eq_nil_iff.mp hnames
        cases hf
        exact .inr ⟨rfl, rfl⟩

/-- A combinator is not built if a definition in its argument is not, or if it refuses the argument. -/
theorem fails_build_combined {c : Combinator} {argument : Value}
    (h : Fails (build reference location (combined c argument)) p fault) :
    Stops reference (places location c argument) p fault ∨
      Refuses reference location c argument p fault := by
  by_cases hc : c = .variant
  · subst hc
    rcases fails_build_variant h with h | ⟨rfl, rfl⟩
    · exact fails_branchesOf h
    · exact .inr .noBranches
  · rw [combined, build, combinator_name, pure_bind] at h
    cases c with
    | optional | nullable | array => exact .inl (.here (fails_bind_pure.mp h))
    | object => exact fails_fieldsOf (.inl rfl) (fails_bind_pure.mp h)
    | partialObject => exact fails_fieldsOf (.inr rfl) (fails_bind_pure.mp h)
    | tuple => exact fails_positionsOf (fails_bind_pure.mp h)
    | oneOf => exact .inr (fails_membersOf (fails_bind_pure.mp h))
    | variant => exact absurd rfl hc

theorem fails_build_str {name : String} :
    Fails (build reference location (.str name)) p fault ↔
      Scalar.ofName? name = none ∧ Fails (reference location name) p fault := by
  rw [build]
  split
  · rename_i kind hkind
    simp [hkind]
  · rename_i hnone
    simp [hnone]

/-- What is no definition is refused by a fault that shows it, or that shows its key if it has just one. -/
inductive Shown (location : Location) : Value → LoadFault → Prop
  | key {key argument : Value} {text : String} : (∀ c : Combinator, key ≠ .str c.name) →
      key.written? = some text →
      Shown location (.map [(key, argument)]) (.broken location (.unknownCombinator text))
  | whole {d : Value} {text : String} : (∀ name, d ≠ .str name) →
      (∀ key argument, d ≠ .map [(key, argument)]) → d.written? = some text →
      Shown location d (.broken location (.notDefinition text))
  | longKey {key argument : Value} : key.written? = none →
      Shown location (.map [(key, argument)]) .numberTooLong
  | long {d : Value} : (∀ key argument, d ≠ .map [(key, argument)]) → d.written? = none →
      Shown location d .numberTooLong

theorem shown_of_combinator {key argument : Value} (h : Fails (combinator location key) p fault) :
    Shown location (.map [(key, argument)]) fault := by
  cases key with
  | str name =>
      simp only [combinator] at h
      split at h
      · exact absurd h fails_pure
      · rename_i hnone
        obtain rfl := fails_throw.mp h
        refine .key (fun c hc => ?_) rfl
        rw [Value.str.inj hc, Combinator.ofName?_name] at hnone
        cases hnone
  | _ =>
      simp only [combinator, fails_bind, fails_needed, yields_needed, fails_throw] at h
      rcases h with ⟨hnone, rfl⟩ | ⟨text, _, ⟨htext, -⟩, rfl⟩
      · exact .longKey hnone
      · exact .key (by simp) htext

/-- Nothing else is built. -/
theorem fails_build_other {d : Value} (htext : ∀ name, d ≠ .str name)
    (hcombined : ∀ c argument, d ≠ combined c argument) (h : Fails (build reference location d) p fault) :
    Shown location d fault := by
  unfold build at h
  split at h
  · exact absurd rfl (htext _)
  · rw [fails_bind] at h
    rcases h with h | ⟨c, _, hc, -⟩
    · exact shown_of_combinator h
    · obtain ⟨rfl, -⟩ := yields_combinator.mp hc
      exact absurd rfl (hcombined c _)
  · rename_i hmap
    simp only [fails_bind, fails_needed, yields_needed, fails_throw] at h
    rcases h with ⟨hnone, rfl⟩ | ⟨text, _, ⟨hwritten, -⟩, rfl⟩
    · exact .long hmap hnone
    · exact .whole htext hmap hwritten

/-- `Unresolved definitions inProgress location name p more fault`: why a name is not resolved within `more` levels.
It is met again, or it has no definition, or no level is left for its definition, or this is not built. -/
inductive Unresolved (definitions : List (String × Value)) (inProgress : List String) (location : Location)
    (name : String) (p : Progress) : Nat → LoadFault → Prop
  | cyclic {more : Nat} : name ∈ inProgress →
      Unresolved definitions inProgress location name p more (.cyclic (cycleFrom name inProgress))
  | unknown {more : Nat} : name ∉ inProgress → definitions.lookup name = none →
      Unresolved definitions inProgress location name p more (.broken location (.unknownName name))
  | exhausted {d : Value} : name ∉ inProgress → definitions.lookup name = some d →
      Unresolved definitions inProgress location name p 0 (.cyclic (cycleFrom name inProgress))
  | inside {more : Nat} {d : Value} {fault : LoadFault} : name ∉ inProgress →
      definitions.lookup name = some d →
      Fails (build (resolve definitions more (inProgress ++ [name])) ⟨name, []⟩ d) p fault →
      Unresolved definitions inProgress location name p (more + 1) fault

theorem fails_resolve {definitions : List (String × Value)} {more : Nat} {inProgress : List String}
    {name : String} (h : Fails (resolve definitions more inProgress location name) p fault) :
    p.built.lookup name = none ∧ Unresolved definitions inProgress location name p more fault := by
  unfold resolve at h
  simp only [fails_bind, fails_get, yields_get, false_or, and_assoc, exists_and_left, exists_eq_left'] at h
  cases hbuilt : p.built.lookup name with
  | some s => simp [hbuilt] at h
  | none =>
      refine ⟨rfl, ?_⟩
      by_cases hmem : name ∈ inProgress
      · simp only [hbuilt, hmem, if_true, fails_throw] at h
        exact h ▸ .cyclic hmem
      · cases hlookup : definitions.lookup name with
        | none =>
            simp only [hbuilt, hmem, if_false, hlookup, fails_throw] at h
            exact h ▸ .unknown hmem hlookup
        | some d =>
            cases more with
            | zero =>
                simp only [hbuilt, hmem, if_false, hlookup, fails_throw] at h
                exact h ▸ .exhausted hmem hlookup
            | succ k =>
                simp only [hbuilt, hmem, hlookup, if_false, fails_bind, fails_modify, fails_pure, and_false,
                  exists_false, or_false] at h
                exact .inside hmem hlookup h

end Wireform.Registry
