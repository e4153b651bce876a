import Wireform.Proofs.ValueText
import Wireform.Proofs.Registry.Refusal

/-!
# Documents that cannot be refused

A definition that breaks a rule is refused by an error that shows it, or its key. That text is missing if an
integer in it has too many digits, and then loading raises something else. This happens only for definitions
that break a rule, and nothing else stands in the way of a refusal.
-/
namespace Wireform.Registry

/-- A definition that is refused with a text that shows an integer with too many digits. -/
inductive Unshowable : Value → Prop
  /-- What is neither a name nor a map of one entry is shown as a whole. -/
  | whole {d : Value} : d.HoldsLong → (∀ key argument, d ≠ .map [(key, argument)]) → Unshowable d
  /-- The key of a map of one entry is shown if it is no combinator. -/
  | combinator {key argument : Value} : key.HoldsLong → Unshowable (.map [(key, argument)])
  /-- The keys of fields and of branches are made texts. -/
  | key {c : Combinator} {entries : List (Value × Value)} {e : Value × Value} :
      c = .object ∨ c = .partialObject ∨ c = .variant → e ∈ entries → e.1.HoldsLong →
      Unshowable (combined c (.map entries))
  | part {c : Combinator} {argument d : Value} : d ∈ parts c argument → Unshowable d →
      Unshowable (combined c argument)

theorem holdsLong_of_part {c : Combinator} {argument d : Value} (hd : d ∈ parts c argument)
    (hlong : d.HoldsLong) : (combined c argument).HoldsLong := by
  refine .value (List.mem_singleton_self _) ?_
  cases c with
  | optional | nullable | array => exact List.mem_singleton.mp hd ▸ hlong
  | object | partialObject | variant =>
      cases argument with
      | map entries =>
          obtain ⟨e, he, rfl⟩ := List.mem_map.mp hd
          exact .value he hlong
      | _ => cases hd
  | tuple =>
      cases argument with
      | list items => exact .list hd hlong
      | _ => cases hd
  | oneOf => cases hd

theorem Unshowable.holdsLong {d : Value} (h : Unshowable d) : d.HoldsLong := by
  induction h with
  | whole hlong => exact hlong
  | combinator hlong => exact .key (List.mem_singleton_self _) hlong
  | key _ he hlong => exact .value (List.mem_singleton_self _) (.key he hlong)
  | part hd _ ih => exact holdsLong_of_part hd ih

/-- A definition that cannot be shown is not well formed. -/
theorem Unshowable.not_wellFormed {definitions : List (String × Value)} {d : Value} (h : Unshowable d) :
    ¬ WellFormed definitions d := by
  induction h with
  | whole hlong hmap =>
      intro hwf
      cases hwf with
      | scalar | reference => cases hlong
      | apply => exact hmap _ _ rfl
  | combinator hlong =>
      intro hwf
      generalize hd : Value.map _ = d at hwf
      cases hwf with
      | scalar | reference => cases hd
      | apply =>
          cases hd
          cases hlong
  | key hc he hlong =>
      intro hwf
      generalize hd : combined _ _ = d at hwf
      cases hwf with
      | scalar | reference => cases hd
      | apply haccepts =>
        obtain ⟨rfl, rfl⟩ := combined_injective hd
        have hsome : _ := Value.text?_eq_none.mpr hlong
        rcases hc with rfl | rfl | rfl
        · simpa [hsome] using haccepts _ he
        · simpa [hsome] using haccepts _ he
        · simpa [hsome] using haccepts.2 _ he
  | part hd _ ih =>
      intro hwf
      generalize hcombined : combined _ _ = d' at hwf
      cases hwf with
      | scalar | reference => cases hcombined
      | apply _ hparts =>
        obtain ⟨rfl, rfl⟩ := combined_injective hcombined
        exact ih (hparts _ hd)

variable {p : Progress}

/-- References never need the text of a number that is too long. -/
def Shows (reference : Lookup) : Prop :=
  ∀ location name p, ¬ Fails (reference location name) p .numberTooLong

theorem unshowable_of_build {reference : Lookup} (href : Shows reference) (d : Value) :
    ∀ {location p}, Fails (build reference location d) p .numberTooLong → Unshowable d := by
  induction d using definition_induction with
  | text name =>
      intro location p h
      exact absurd (fails_build_str.mp h).2 (href location name p)
  | apply c argument ih =>
      intro location p h
      rcases fails_build_combined h with hstops | hrefuses
      · obtain ⟨place, hplace, q, hfails⟩ := hstops.exists
        have hpart := mem_parts_of_places hplace
        exact .part hpart (ih _ hpart hfails)
      · cases hrefuses with
        | key hc hreaches hkey => exact .key hc hreaches.mem (Value.text?_eq_none.mp hkey)
  | other d htext hcombined =>
      intro location p h
      cases fails_build_other htext hcombined h with
      | longKey hkey => exact .combinator ((Value.written?_eq_none _).mp hkey)
      | long hmap hlong => exact .whole ((Value.written?_eq_none d).mp hlong) hmap

variable {definitions : List (String × Value)}

/-- Definitions that can all be shown are resolved or refused. -/
theorem shows_resolve (h : ∀ e ∈ definitions, ¬ Unshowable e.2) (more : Nat) (inProgress : List String) :
    Shows (resolve definitions more inProgress) := by
  induction more generalizing inProgress with
  | zero =>
      intro location name p hfails
      cases (fails_resolve hfails).2
  | succ more ih =>
      intro location name p hfails
      cases (fails_resolve hfails).2 with
      | inside _ hlookup hbuild =>
          exact h _ (Named.mem_of_lookup hlookup) (unshowable_of_build (ih _) _ hbuild)

theorem not_fails_resolveAll (h : ∀ e ∈ definitions, ¬ Unshowable e.2) (names : List String) (p : Progress) :
    ¬ Fails (resolveAll definitions names) p .numberTooLong := by
  induction names generalizing p with
  | nil => exact fails_pure
  | cons name names ih =>
      simp only [resolveAll, fails_bind, fails_pure, and_false, exists_false, or_false]
      rintro (hfails | ⟨s, q, -, hfails⟩)
      · exact shows_resolve h _ _ _ _ _ hfails
      · exact ih q hfails

theorem readDefinitions_ne (document : Value) : readDefinitions document ≠ .error .numberTooLong := by
  cases document with
  | map entries =>
      simp only [readDefinitions]
      split
      · simp
      · cases versionComplaints entries <;> cases definitionsOf entries <;> simp
  | _ => simp [readDefinitions]

theorem holdsLong_of_readDefinitions {document : Value} (hread : readDefinitions document = .ok definitions)
    {d : String × Value} (hd : d ∈ definitions) (hlong : d.2.HoldsLong) : document.HoldsLong := by
  obtain ⟨entries, defs, rfl, hdefs, hall⟩ := exists_mem_of_readDefinitions hread
  obtain ⟨e, he, heq⟩ := hall d hd
  exact .value hdefs (.value he (heq ▸ hlong))

/-- A number that is too long stands in one of the definitions. -/
theorem exists_unshowable {document : Value} (h : Fails (loadSchemas document) p .numberTooLong) :
    ∃ definitions, readDefinitions document = .ok definitions ∧ ∃ e ∈ definitions, Unshowable e.2 := by
  unfold loadSchemas at h
  cases hread : readDefinitions document with
  | error fault =>
      rw [hread] at h
      obtain rfl := fails_throw.mp h
      exact absurd hread (readDefinitions_ne document)
  | ok definitions =>
      refine ⟨definitions, rfl, ?_⟩
      by_contra hall
      simp only [not_exists, not_and] at hall
      simp only [hread] at h
      split at h
      · simp only [fails_bind, not_fails_report, fails_pure, and_false, exists_false, or_false] at h
        exact not_fails_resolveAll hall _ _ h
      · simp at h

theorem attemptDocument_eq_ok {maxDepth : Option Int} {document : Value} {r : Registry} :
    (attemptDocument maxDepth document).1 = .ok r ↔ (ofDocument maxDepth document).1 = .ok r := by
  rw [attemptDocument_eq]
  cases (ofDocument maxDepth document).1 <;> simp [Except.mapError]

theorem ofDocument_eq_error {maxDepth : Option Int} {document : Value} {fault : LoadFault} :
    (ofDocument maxDepth document).1 = .error fault ↔ Fails (loadSchemas document) ⟨[], []⟩ fault := by
  unfold ofDocument Fails
  cases (loadSchemas document).run.run ⟨[], []⟩ with
  | mk result progress => exact map_eq_error

theorem fails_build_whole {reference : Lookup} {location : Location} {d : Value} (hlong : d.HoldsLong)
    (hmap : ∀ key argument, d ≠ .map [(key, argument)]) :
    Fails (build reference location d) p .numberTooLong := by
  unfold build
  split
  · cases hlong
  · exact absurd rfl (hmap _ _)
  · exact fails_bind.mpr (.inl (fails_needed.mpr ⟨(Value.written?_eq_none d).mpr hlong, rfl⟩))

/-- If the first definition of a document is one that cannot be shown as a whole, loading raises. -/
theorem attemptDocument_of_first {maxDepth : Option Int} {document d : Value} {name : String}
    {rest : List (String × Value)} (hread : readDefinitions document = .ok ((name, d) :: rest))
    (hscalars : ∀ e ∈ (name, d) :: rest, Scalar.ofName? e.1 = none) (hlong : d.HoldsLong)
    (hmap : ∀ key argument, d ≠ .map [(key, argument)]) :
    (attemptDocument maxDepth document).1 = .error (.operation .value) := by
  have hresolve : Fails (resolve ((name, d) :: rest) (rest.length + 1) [] ⟨name, []⟩ name) ⟨[], []⟩
      .numberTooLong := by
    unfold resolve
    refine fails_bind.mpr (.inr ⟨_, _, yields_get.mpr ⟨rfl, rfl⟩, ?_⟩)
    simp only [List.lookup_nil, List.not_mem_nil, if_false, List.lookup_cons_self]
    exact fails_bind.mpr (.inl (fails_build_whole hlong hmap))
  have hload : Fails (loadSchemas document) ⟨[], []⟩ .numberTooLong := by
    unfold loadSchemas
    have hshadowing := shadowing_eq_nil.mpr (List.forall_mem_map.mpr hscalars)
    simp only [hread, hshadowing, if_true]
    exact fails_bind.mpr (.inl (fails_bind.mpr (.inl hresolve)))
  rw [attemptDocument_eq, ofDocument_eq_error.mpr hload]
  rfl

/-- Loading a document gives a registry or raises the registry's own error, unless there is a definition that
cannot be shown. Such a definition is never loaded. -/
theorem load_raises (maxDepth : Option Int) (document : Value) :
    ((∃ r, (attemptDocument maxDepth document).1 = .ok r) ∨
      (∃ fault, fault ≠ .numberTooLong ∧ (attemptDocument maxDepth document).1 = .error (.own fault)) ∨
      ((attemptDocument maxDepth document).1 = .error (.operation .value) ∧
        ∃ definitions, readDefinitions document = .ok definitions ∧
          ∃ e ∈ definitions, Unshowable e.2)) ∧
    (∀ definitions, readDefinitions document = .ok definitions → (∃ e ∈ definitions, Unshowable e.2) →
      ¬ ∃ r, (attemptDocument maxDepth document).1 = .ok r) := by
  constructor
  · cases hload : (ofDocument maxDepth document).1 with
    | ok r => exact .inl ⟨r, attemptDocument_eq_ok.mpr hload⟩
    | error fault =>
        have hraised : (attemptDocument maxDepth document).1 = .error (Raised.ofLoadFault fault) := by
          rw [attemptDocument_eq, hload]
          rfl
        by_cases hlong : fault = .numberTooLong
        · subst hlong
          exact .inr (.inr ⟨hraised, exists_unshowable (ofDocument_eq_error.mp hload)⟩)
        · refine .inr (.inl ⟨fault, hlong, ?_⟩)
          rw [hraised]
          cases fault with
          | numberTooLong => exact absurd rfl hlong
          | _ => rfl
  · rintro definitions hread ⟨e, he, hunshowable⟩ ⟨r, hr⟩
    obtain ⟨_, hread', hloadable, -⟩ := of_ofDocument (attemptDocument_eq_ok.mp hr)
    rw [hread] at hread'
    cases hread'
    exact hunshowable.not_wellFormed (hloadable.wellFormed e he)

/-- The least integer that cannot be shown is no definition, and its refusal is none of the registry's own. -/
theorem load_raises_long :
    (attemptDocument none (document [("long", .int Numeral.tooLarge)])).1 = .error (.operation .value) ∧
      ¬ ((∃ r, (attemptDocument none (document [("long", .int Numeral.tooLarge)])).1 = .ok r) ∨
        ∃ fault, (attemptDocument none (document [("long", .int Numeral.tooLarge)])).1 =
          .error (.own fault)) := by
  have hread : readDefinitions (document [("long", .int Numeral.tooLarge)]) =
      .ok [("long", .int Numeral.tooLarge)] := readDefinitions_document (List.nodup_singleton _)
  have hscalars : ∀ e ∈ [("long", Value.int Numeral.tooLarge)], Scalar.ofName? e.1 = none := by
    rw [List.forall_mem_singleton]
    rfl
  have hlong : Value.HoldsLong (.int Numeral.tooLarge) := .int (Nat.le_of_eq (Int.natAbs_natCast _).symm)
  have hraised : (attemptDocument none (document [("long", .int Numeral.tooLarge)])).1 =
      .error (.operation .value) := attemptDocument_of_first hread hscalars hlong (fun _ _ => nofun)
  refine ⟨hraised, ?_⟩
  rw [hraised]
  rintro (⟨_, h⟩ | ⟨_, h⟩) <;> cases h

end Wireform.Registry
