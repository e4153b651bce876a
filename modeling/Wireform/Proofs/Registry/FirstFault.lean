import Wireform.Proofs.Registry.Failure
import Wireform.Proofs.Registry.Tour

/-!
# The first fault

A document that is not loaded is refused where its tour first comes to something that breaks a rule. The
resolver and the tour go the same way: the names that the tour has entered are those that are resolved or in
progress, and all visits so far are clean. So a fault has the location of the visit that is next, and
everything that is complete before it is well formed.
-/
namespace Wireform.Registry

/-- `Breaks definitions v reason`: what is visited breaks the rule that the reason states. -/
inductive Breaks (definitions : List (String × Value)) : Visit → Reason → Prop
  | unknownName {location : Location} {name : String} : Scalar.ofName? name = none →
      name ∉ definitions.map Prod.fst → Breaks definitions (.reach location (.str name)) (.unknownName name)
  | unknownCombinator {location : Location} {key argument : Value} {text : String} :
      (∀ c : Combinator, key ≠ .str c.name) → key.written? = some text →
      Breaks definitions (.reach location (.map [(key, argument)])) (.unknownCombinator text)
  | notDefinition {location : Location} {d : Value} {text : String} : (∀ name, d ≠ .str name) →
      (∀ key argument, d ≠ .map [(key, argument)]) → d.written? = some text →
      Breaks definitions (.reach location d) (.notDefinition text)
  | fields {location : Location} {c : Combinator} {argument : Value} : c = .object ∨ c = .partialObject →
      (∀ entries, argument ≠ .map entries) → Breaks definitions (.argument location c argument) .fieldsNotMap
  | positions {location : Location} {argument : Value} : (∀ items, argument ≠ .list items) →
      Breaks definitions (.argument location .tuple argument) .positionsNotList
  | members {location : Location} {argument : Value} : (∀ items, argument ≠ .list items) →
      (∀ entries, argument ≠ .map entries) →
      Breaks definitions (.argument location .oneOf argument) .membersNotCollection
  | branches {location : Location} {argument : Value} : (∀ entries, argument ≠ .map entries) →
      Breaks definitions (.argument location .variant argument) .branchesNotMap
  | member {location : Location} {argument : Value} :
      (∃ items, argument = .list items) ∨ (∃ entries, argument = .map entries) → ¬ Accepts .oneOf argument →
      Breaks definitions (.reach location (combined .oneOf argument)) (.definition .memberNotText)
  | noBranches {location : Location} :
      Breaks definitions (.reach location (combined .variant (.map []))) (.definition .noBranches)
  /-- A variant comes to a branch that is no object. -/
  | branch {location inside : Location} {argument d : Value} {tag : String} {s : Schema} :
      ¬ ObjectShaped definitions d → Denotes definitions d s →
      Breaks definitions (.take location .variant argument (inside.step (.key tag), d))
        (.definition (.branchNotObject tag s.container))

/-- Nothing is wrong at a visit: it breaks no rule, and what is complete has a meaning. -/
structure Visit.Clean (definitions : List (String × Value)) (v : Visit) : Prop where
  keeps : ∀ reason, ¬ Breaks definitions v reason
  meaning : ∀ location d, v = .complete location d → ∃ s, Denotes definitions d s

/-- `Spots definitions visits fault`: a fault at a place is that of the first visit that is not clean. -/
inductive Spots (definitions : List (String × Value)) (visits : List Visit) : LoadFault → Prop
  | broken {before after : List Visit} {v : Visit} {reason : Reason} : visits = before ++ v :: after →
      (∀ w ∈ before, w.Clean definitions) → Breaks definitions v reason →
      Spots definitions visits (.broken v.location reason)
  | cyclic (names : List String) : Spots definitions visits (.cyclic names)
  | numberTooLong : Spots definitions visits .numberTooLong

variable {definitions : List (String × Value)} {location : Location}

theorem Spots.mono {visits more : List Visit} {fault : LoadFault} (h : Spots definitions visits fault)
    (hbegin : visits <+: more) : Spots definitions more fault := by
  cases h with
  | @broken before after v reason heq hclean hbreaks =>
      obtain ⟨rest, rfl⟩ := hbegin
      have hmore : visits ++ rest = before ++ v :: (after ++ rest) := by
        rw [heq, List.append_assoc, List.cons_append]
      exact .broken hmore hclean hbreaks
  | cyclic names => exact .cyclic names
  | numberTooLong => exact .numberTooLong

theorem spots_visit {t : Tour} {v : Visit} {reason : Reason} (ht : ∀ w ∈ t.visits, w.Clean definitions)
    (h : Breaks definitions v reason) : Spots definitions (t.visit v).visits (.broken v.location reason) :=
  .broken rfl ht h

/-! ### Clean visits -/

section

variable {c : Combinator} {argument : Value} {reason : Reason}

/-- A combinator that breaks a rule itself lists something that is no text as a member, or has no branches. -/
theorem Breaks.of_reach (h : Breaks definitions (.reach location (combined c argument)) reason) :
    c = .oneOf ∧ ((∃ items, argument = .list items) ∨ ∃ entries, argument = .map entries) ∧
      ¬ Accepts .oneOf argument ∨ c = .variant ∧ argument = .map [] := by
  generalize hd : combined c argument = d at h
  generalize hv : Visit.reach location d = v at h
  cases h with
  | unknownName => cases hv; cases hd
  | unknownCombinator hkey => cases hv; cases hd; exact absurd rfl (hkey c)
  | notDefinition _ hmap => cases hv; exact absurd hd.symm (hmap _ _)
  | member hform hmember =>
      cases hv
      obtain ⟨rfl, rfl⟩ := combined_injective hd
      exact .inl ⟨rfl, hform, hmember⟩
  | noBranches =>
      cases hv
      exact .inr (combined_injective hd)
  | _ => cases hv

/-- There are no definitions in an argument that breaks a rule. -/
theorem Breaks.of_argument
    (h : Breaks definitions (.argument (location.step (.combinator c)) c argument) reason) :
    ¬ Accepts c argument ∧ places location c argument = [] := by
  cases h with
  | fields hc hmap =>
      cases argument with
      | map entries => exact absurd rfl (hmap entries)
      | _ => rcases hc with rfl | rfl <;> exact ⟨id, rfl⟩
  | positions hlist =>
      cases argument with
      | list items => exact absurd rfl (hlist items)
      | _ => exact ⟨id, rfl⟩
  | members hlist hmap =>
      cases argument with
      | list items => exact absurd rfl (hlist items)
      | map entries => exact absurd rfl (hmap entries)
      | _ => exact ⟨id, rfl⟩
  | branches hmap =>
      cases argument with
      | map entries => exact absurd rfl (hmap entries)
      | _ => exact ⟨id, rfl⟩

/-- The visits to a combinator and its argument are clean if it accepts the argument or goes on into it. -/
theorem clean_into (location : Location) (h : Accepts c argument ∨ places location c argument ≠ []) :
    (Visit.reach location (combined c argument)).Clean definitions ∧
      (Visit.argument (location.step (.combinator c)) c argument).Clean definitions := by
  refine ⟨⟨fun reason hbreaks => ?_, nofun⟩, ⟨fun reason hbreaks => ?_, nofun⟩⟩
  · rcases hbreaks.of_reach with ⟨rfl, -, hmember⟩ | ⟨rfl, rfl⟩
    · exact h.elim hmember fun hne => hne rfl
    · exact h.elim (fun haccepts => haccepts.1 rfl) fun hne => hne rfl
  · obtain ⟨hnot, hnil⟩ := hbreaks.of_argument
    exact h.elim hnot fun hne => hne hnil

/-- If an argument breaks a rule, its combinator does not. -/
theorem Breaks.clean_reach
    (h : Breaks definitions (.argument (location.step (.combinator c)) c argument) reason) :
    (Visit.reach location (combined c argument)).Clean definitions := by
  refine ⟨fun reason hbreaks => ?_, nofun⟩
  rcases hbreaks.of_reach with ⟨rfl, hform, -⟩ | ⟨rfl, rfl⟩
  · cases h with
    | fields hc => simp at hc
    | members hlist hmap =>
        rcases hform with ⟨items, rfl⟩ | ⟨entries, rfl⟩
        · exact hlist items rfl
        · exact hmap entries rfl
  · cases h with
    | fields hc => simp at hc
    | branches hmap => exact hmap [] rfl

theorem clean_take {part : Location × Value} (h : c = .variant → ObjectShaped definitions part.2) :
    (Visit.take location c argument part).Clean definitions := by
  refine ⟨fun reason hbreaks => ?_, nofun⟩
  cases hbreaks with
  | branch hshaped => exact hshaped (h rfl)

theorem clean_name {name : String} (h : Scalar.ofName? name = none → name ∈ definitions.map Prod.fst) :
    (Visit.reach location (.str name)).Clean definitions := by
  refine ⟨fun reason hbreaks => ?_, nofun⟩
  generalize hv : Visit.reach location (.str name) = v at hbreaks
  cases hbreaks with
  | unknownName hnone hnew => cases hv; exact hnew (h hnone)
  | notDefinition htext => cases hv; exact htext _ rfl
  | _ => cases hv

theorem clean_complete {d : Value} {s : Schema} (h : Denotes definitions d s) :
    (Visit.complete location d).Clean definitions := by
  refine ⟨nofun, fun location' d' heq => ?_⟩
  cases heq
  exact ⟨s, h⟩

end

/-! ### The invariant -/

/-- The tour is as far as the resolver. -/
structure Tracks (definitions : List (String × Value)) (inProgress : List String) (p : Progress) (t : Tour) :
    Prop where
  sound : p.Sound definitions
  entered : ∀ name, name ∈ t.entered ↔ name ∈ p.built.map Prod.fst ∨ name ∈ inProgress
  clean : ∀ v ∈ t.visits, v.Clean definitions

section

variable {inProgress : List String} {p q : Progress} {t : Tour}

theorem Tracks.visit (h : Tracks definitions inProgress p t) {v : Visit} (hv : v.Clean definitions) :
    Tracks definitions inProgress p (t.visit v) := by
  refine ⟨h.sound, h.entered, fun w hw => ?_⟩
  rcases List.mem_append.mp hw with hw | hw
  · exact h.clean w hw
  · exact List.mem_singleton.mp hw ▸ hv

theorem Tracks.report (h : Tracks definitions inProgress p t) (records : List Log.Record) :
    Tracks definitions inProgress { p with log := p.log ++ records } t :=
  ⟨h.sound, h.entered, h.clean⟩

/-- A name that is resolved from here on. -/
theorem Tracks.begin (h : Tracks definitions inProgress p t) (name : String) :
    Tracks definitions (inProgress ++ [name]) p { t with entered := name :: t.entered } := by
  refine ⟨h.sound, fun other => ?_, h.clean⟩
  rw [List.mem_cons, h.entered, List.mem_append, List.mem_singleton, or_comm, or_assoc]

/-- A name that has been resolved. -/
theorem Tracks.finish {name : String} {s : Schema} (h : Tracks definitions (inProgress ++ [name]) p t)
    (hs : Denotes definitions (.str name) s) :
    Tracks definitions inProgress { p with built := p.built ++ [(name, s)] } t := by
  refine ⟨fun e he => ?_, fun other => ?_, h.clean⟩
  · rcases List.mem_append.mp he with he | he
    · exact h.sound e he
    · exact List.mem_singleton.mp he ▸ hs
  · rw [h.entered, List.map_append, List.mem_append, List.mem_append, List.map_singleton, or_assoc,
      or_comm (a := other ∈ inProgress)]

/-- Names are followed as references are resolved. -/
structure Mirrors (definitions : List (String × Value)) (inProgress : List String) (reference : Lookup)
    (follow : Tour.Follow) : Prop where
  sound : SoundLookup definitions reference
  grows : Tour.Grows follow
  yields : ∀ {location name p s q t}, Scalar.ofName? name = none → Tracks definitions inProgress p t →
    Yields (reference location name) p s q → Tracks definitions inProgress q (follow name t)
  unknown : ∀ {location name p fault}, name ∉ definitions.map Prod.fst →
    Fails (reference location name) p fault →
    fault = .broken location (.unknownName name) ∨ ∃ names, fault = .cyclic names
  fails : ∀ {location name p fault t}, name ∈ definitions.map Prod.fst → Tracks definitions inProgress p t →
    Fails (reference location name) p fault → Spots definitions (follow name t).visits fault

variable {reference : Lookup} {follow : Tour.Follow} {c : Combinator} {argument : Value}

theorem tracks_through {ps : List (Location × Value)} {ss : List Schema} (href : SoundLookup definitions reference)
    (hparts : ∀ part ∈ ps, ∀ {p s q t}, Tracks definitions inProgress p t →
      Yields (build reference part.1 part.2) p s q →
      Tracks definitions inProgress q (Tour.walk follow part.1 part.2 t))
    (hobjects : c = .variant → ∀ s ∈ ss, s.fields?.isSome) (ht : Tracks definitions inProgress p t)
    (h : Through reference ps p ss q) :
    Tracks definitions inProgress q (Tour.walkPlaces follow location c argument ps t) := by
  induction h generalizing t with
  | nil => exact ht
  | @cons place d s ps ss p r q hs _ ih =>
      rw [List.forall_mem_cons] at hparts
      simp only [List.forall_mem_cons] at hobjects
      have hdenotes := (sound_build href d ht.sound hs).1
      have htake : (Visit.take location c argument (place, d)).Clean definitions :=
        clean_take fun hc => hdenotes.objectShaped (hobjects hc).1
      exact ih hparts.2 (fun hc => (hobjects hc).2) ((hparts.1 ht hs).visit htake)

/-- As a definition is built, the tour goes through it. -/
theorem tracks_build (href : Mirrors definitions inProgress reference follow) (d : Value) :
    ∀ {location p s q t}, Tracks definitions inProgress p t → Yields (build reference location d) p s q →
      Tracks definitions inProgress q (Tour.walk follow location d t) := by
  induction d using definition_induction with
  | text name =>
      intro location p s q t ht h
      have hdenotes := (sound_build href.sound _ ht.sound h).1
      rw [Tour.walk]
      refine Tracks.visit ?_ (clean_complete hdenotes)
      rcases yields_build_str.mp h with ⟨kind, hkind, rfl, rfl⟩ | ⟨hnone, h⟩
      · rw [if_pos (by simp [hkind])]
        exact ht.visit (clean_name (by simp [hkind]))
      · rw [if_neg (by simp [hnone])]
        have hname : name ∈ definitions.map Prod.fst := by
          cases hdenotes with
          | scalar hkind => simp [hnone] at hkind
          | reference _ hlookup => exact List.mem_map_of_mem (Named.mem_of_lookup hlookup)
        exact href.yields hnone (ht.visit (clean_name fun _ => hname)) h
  | apply c argument ih =>
      intro location p s q t ht h
      have hdenotes := (sound_build href.sound _ ht.sound h).1
      obtain ⟨ss, r, hthrough, hassembles, rfl⟩ := yields_build_combined.mp h
      obtain ⟨hreach, hargument⟩ := clean_into location (.inl hassembles.accepts)
      have hobjects : c = .variant → ∀ s ∈ ss, s.fields?.isSome := by
        rintro rfl s hs
        cases hassembles with
        | variant =>
            obtain ⟨b, -, rfl⟩ := List.mem_map.mp hs
            rfl
      rw [Tour.walk_combined]
      refine Tracks.visit (Tracks.report ?_ _) (clean_complete hdenotes)
      refine tracks_through href.sound (fun part hpart => ?_) hobjects ((ht.visit hreach).visit hargument)
        hthrough
      exact ih part.2 (mem_parts_of_places hpart)
  | other d htext hcombined =>
      intro location p s q t _ h
      exact absurd h (not_yields_build htext hcombined)

section

variable {ps : List (Location × Value)} {fault : LoadFault}

/-- If the definition at a place is not built, the tour comes to something that breaks a rule on its way
through it, and the fault is that of the first such visit. -/
def Notices (definitions : List (String × Value)) (inProgress : List String) (reference : Lookup)
    (follow : Tour.Follow) (part : Location × Value) : Prop :=
  ∀ p fault t, Tracks definitions inProgress p t → Fails (build reference part.1 part.2) p fault →
    Spots definitions (Tour.walk follow part.1 part.2 t).visits fault

/-- One of the definitions at some places is not built. -/
theorem spots_stops (href : Mirrors definitions inProgress reference follow) (hc : c ≠ .variant)
    (hparts : ∀ part ∈ ps, Notices definitions inProgress reference follow part)
    (ht : Tracks definitions inProgress p t) (h : Stops reference ps p fault) :
    Spots definitions (Tour.walkPlaces follow location c argument ps t).visits fault := by
  induction h generalizing t with
  | @here part ps p fault hfails =>
      have hspots := hparts part List.mem_cons_self _ _ _ ht hfails
      exact hspots.mono ((Tour.prefix_visit _ _).trans (href.grows.walkPlaces ps _))
  | @later part ps s p r fault hs _ ih =>
      have htake : (Visit.take location c argument part).Clean definitions := clean_take fun h => absurd h hc
      exact ih (fun part hpart => hparts part (List.mem_cons_of_mem _ hpart))
        ((tracks_build href part.2 ht hs).visit htake)

/-- One of the branches of a variant is not built, or it is no object. -/
theorem spots_branches (hscalars : ∀ e ∈ definitions, Scalar.ofName? e.1 = none)
    (href : Mirrors definitions inProgress reference follow) {inside : Location}
    {entries : List (Value × Value)}
    (hparts : ∀ part ∈ keyPlaces inside entries, Notices definitions inProgress reference follow part)
    (ht : Tracks definitions inProgress p t)
    (h : Fails (buildBranches reference location inside entries) p fault) :
    Spots definitions (Tour.walkPlaces follow location .variant argument (keyPlaces inside entries) t).visits
      fault := by
  induction entries generalizing p t with
  | nil => exact absurd h fails_pure
  | cons e entries ih =>
      obtain ⟨key, d⟩ := e
      simp only [keyPlaces, List.map_cons, List.forall_mem_cons] at hparts
      simp only [buildBranches, fails_bind, fails_needed, yields_needed, yields_checked, fails_pure,
        fails_checked (answers_requireBranch _ _), and_false, exists_false, or_false] at h
      rcases h with ⟨-, rfl⟩ | ⟨tag, _, ⟨htag, rfl⟩, h⟩
      · exact .numberTooLong
      · simp only [htag, Option.getD_some] at hparts
        simp only [keyPlaces, List.map_cons, htag, Option.getD_some]
        rcases h with h | ⟨s, q, hs, h⟩
        · exact (hparts.1 _ _ _ ht h).mono ((Tour.prefix_visit _ _).trans (href.grows.walkPlaces _ _))
        · have hwalked := tracks_build href d ht hs
          have hdenotes := (sound_build href.sound d ht.sound hs).1
          rcases h with ⟨f, hf, rfl⟩ | ⟨b, _, ⟨hb, rfl⟩, h⟩
          · obtain ⟨hfields, rfl⟩ := requireBranch_eq_error hf
            have hshaped : ¬ ObjectShaped definitions d := fun hshaped => by
              obtain ⟨fields, rfl⟩ := hshaped.fields hscalars hdenotes
              cases hfields
            exact (spots_visit hwalked.clean (.branch hshaped hdenotes)).mono (href.grows.walkPlaces _ _)
          · obtain ⟨-, rfl⟩ := requireBranch_eq_ok.mp hb
            have htake : (Visit.take location .variant argument (inside.step (.key tag), d)).Clean definitions :=
              clean_take fun _ => hdenotes.objectShaped rfl
            exact ih hparts.2 (hwalked.visit htake) h

theorem Stops.ne_nil (h : Stops reference ps p fault) : ps ≠ [] := by
  cases h <;> exact List.cons_ne_nil _ _

/-- What the tour has visited once it has been through the definitions in an argument. -/
def inside (follow : Tour.Follow) (location : Location) (c : Combinator) (argument : Value) (t : Tour) :
    List Visit :=
  (Tour.walkPlaces follow location c argument (places location c argument)
    ((t.visit (.reach location (combined c argument))).visit
      (.argument (location.step (.combinator c)) c argument))).visits

theorem spots_reach (href : Mirrors definitions inProgress reference follow)
    (ht : Tracks definitions inProgress p t) {reason : Reason}
    (h : Breaks definitions (.reach location (combined c argument)) reason) :
    Spots definitions (inside follow location c argument t) (.broken location reason) :=
  (spots_visit ht.clean h).mono ((Tour.prefix_visit _ _).trans (href.grows.walkPlaces _ _))

theorem spots_argument (href : Mirrors definitions inProgress reference follow)
    (ht : Tracks definitions inProgress p t) {reason : Reason}
    (h : Breaks definitions (.argument (location.step (.combinator c)) c argument) reason) :
    Spots definitions (inside follow location c argument t)
      (.broken (location.step (.combinator c)) reason) :=
  (spots_visit (ht.visit h.clean_reach).clean h).mono (href.grows.walkPlaces _ _)

/-- A combinator refuses its argument. -/
theorem spots_refuses (href : Mirrors definitions inProgress reference follow) (hc : c ≠ .variant)
    (ht : Tracks definitions inProgress p t) (h : Refuses reference location c argument p fault) :
    Spots definitions (inside follow location c argument t) fault := by
  cases h with
  | fields hobject hmap => exact spots_argument href ht (.fields hobject hmap)
  | positions hlist => exact spots_argument href ht (.positions hlist)
  | members hlist hmap => exact spots_argument href ht (.members hlist hmap)
  | member hform hmember => exact spots_reach href ht (.member hform hmember)
  | key => exact .numberTooLong
  | branches | noBranches | branch => exact absurd rfl hc

/-- Whatever is not built is noticed. -/
theorem notices (hscalars : ∀ e ∈ definitions, Scalar.ofName? e.1 = none)
    (href : Mirrors definitions inProgress reference follow) (d : Value) :
    ∀ location, Notices definitions inProgress reference follow (location, d) := by
  induction d using definition_induction with
  | text name =>
      intro location p fault t ht h
      obtain ⟨hnone, h⟩ := fails_build_str.mp h
      rw [Tour.walk, if_neg (by simp [hnone])]
      refine Spots.mono ?_ (Tour.prefix_visit _ _)
      by_cases hname : name ∈ definitions.map Prod.fst
      · exact href.fails hname (ht.visit (clean_name fun _ => hname)) h
      · rcases href.unknown hname h with rfl | ⟨names, rfl⟩
        · have hbreaks : Breaks definitions (.reach location (.str name)) (.unknownName name) :=
            .unknownName hnone hname
          exact (spots_visit ht.clean hbreaks).mono (href.grows _ _)
        · exact .cyclic names
  | apply c argument ih =>
      intro location p fault t ht h
      rw [Tour.walk_combined]
      refine Spots.mono ?_ (Tour.prefix_visit _ _)
      have hparts : ∀ part ∈ places location c argument,
          Notices definitions inProgress reference follow part :=
        fun part hpart => ih part.2 (mem_parts_of_places hpart) part.1
      by_cases hc : c = .variant
      · subst hc
        rcases fails_build_variant h with h | ⟨rfl, rfl⟩
        · cases argument with
          | map entries =>
              have hne : places location .variant (.map entries) ≠ [] := fun hnil => by
                obtain rfl := List.map_eq_nil_iff.mp hnil
                exact fails_pure h
              obtain ⟨hreach, hargument⟩ := clean_into location (.inr hne)
              exact spots_branches hscalars href hparts ((ht.visit hreach).visit hargument) h
          | _ =>
              obtain rfl := fails_throw.mp h
              exact spots_argument href ht (.branches (by simp))
        · exact spots_reach href ht .noBranches
      · rcases fails_build_combined h with hstops | hrefuses
        · obtain ⟨hreach, hargument⟩ := clean_into location (.inr hstops.ne_nil)
          exact spots_stops href hc hparts ((ht.visit hreach).visit hargument) hstops
        · exact spots_refuses href hc ht hrefuses
  | other d htext hcombined =>
      intro location p fault t ht h
      rw [Tour.walk_other htext hcombined]
      cases fails_build_other htext hcombined h with
      | key hkey hwritten => exact spots_visit ht.clean (.unknownCombinator hkey hwritten)
      | whole htext hmap hwritten => exact spots_visit ht.clean (.notDefinition htext hmap hwritten)
      | longKey | long => exact .numberTooLong

end

/-! ### The run -/

/-- A name that is not known has no definition, or it closes a cycle. -/
theorem unknown_resolve {more : Nat} {name : String} {fault : LoadFault}
    (hname : name ∉ definitions.map Prod.fst)
    (h : Fails (resolve definitions more inProgress location name) p fault) :
    fault = .broken location (.unknownName name) ∨ ∃ names, fault = .cyclic names := by
  cases (fails_resolve h).2 with
  | cyclic => exact .inr ⟨_, rfl⟩
  | unknown => exact .inl rfl
  | exhausted _ hlookup | inside _ hlookup =>
      exact absurd (List.mem_map_of_mem (Named.mem_of_lookup hlookup)) hname

/-- The tour enters a name where the resolver builds its definition. -/
theorem mirrors_resolve (hscalars : ∀ e ∈ definitions, Scalar.ofName? e.1 = none) (more : Nat)
    (inProgress : List String) :
    Mirrors definitions inProgress (resolve definitions more inProgress) (Tour.enter definitions more) := by
  induction more generalizing inProgress with
  | zero =>
      refine ⟨sound_resolve 0 inProgress, Tour.grows_enter definitions 0, ?_, unknown_resolve, ?_⟩
      · intro location name p s q t _ ht h
        rcases yields_resolve.mp h with ⟨-, rfl⟩ | ⟨-, -, _, k, _, -, hk, -⟩
        · exact ht
        · cases hk
      · intro location name p fault t hname ht h
        cases (fails_resolve h).2 with
        | cyclic | exhausted => exact .cyclic _
        | unknown _ hnone =>
            obtain ⟨d, hlookup⟩ := Named.exists_lookup hname
            simp [hnone] at hlookup
  | succ more ih =>
      have hnew {name : String} {p : Progress} {t : Tour} (ht : Tracks definitions inProgress p t)
          (hbuilt : p.built.lookup name = none) (hprogress : name ∉ inProgress) : name ∉ t.entered := by
        rw [ht.entered, ← Named.isSome_lookup, hbuilt]
        simpa using hprogress
      refine ⟨sound_resolve _ inProgress, Tour.grows_enter definitions _, ?_, unknown_resolve, ?_⟩
      · intro location name p s q t hscalar ht h
        rcases yields_resolve.mp h with ⟨hbuilt, rfl⟩ | ⟨hbuilt, hprogress, d, k, r, hlookup, hk, hd, rfl⟩
        · have hentered : name ∈ t.entered :=
            (ht.entered name).mpr (.inl (List.mem_map_of_mem (Named.mem_of_lookup hbuilt)))
          rwa [Tour.enter_of_mem hentered]
        · cases hk
          rw [Tour.enter_of_lookup (hnew ht hbuilt hprogress) hlookup]
          have hdenotes := (sound_build (sound_resolve more _) d ht.sound hd).1
          exact (tracks_build (ih _) d (ht.begin name) hd).finish (.reference hscalar hlookup hdenotes)
      · intro location name p fault t hname ht h
        obtain ⟨hbuilt, hunresolved⟩ := fails_resolve h
        cases hunresolved with
        | cyclic => exact .cyclic _
        | unknown _ hnone =>
            obtain ⟨d, hlookup⟩ := Named.exists_lookup hname
            simp [hnone] at hlookup
        | inside hprogress hlookup hfails =>
            rw [Tour.enter_of_lookup (hnew ht hbuilt hprogress) hlookup]
            exact notices hscalars (ih _) _ ⟨name, []⟩ _ _ _ (ht.begin name) hfails

theorem spots_resolveAll (hscalars : ∀ e ∈ definitions, Scalar.ofName? e.1 = none) {names : List String}
    (hnames : names ⊆ definitions.map Prod.fst) {fault : LoadFault} (ht : Tracks definitions [] p t)
    (h : Fails (resolveAll definitions names) p fault) :
    Spots definitions (Tour.enterAll definitions names t).visits fault := by
  induction names generalizing p t with
  | nil => exact absurd h fails_pure
  | cons name names ih =>
      obtain ⟨hname, hrest⟩ := List.cons_subset.mp hnames
      have href := mirrors_resolve hscalars definitions.length []
      simp only [resolveAll, fails_bind, fails_pure, and_false, exists_false, or_false] at h
      rcases h with h | ⟨s, q, hs, h⟩
      · exact (href.fails hname ht h).mono (Tour.grows_enterAll names _)
      · obtain ⟨e, he, rfl⟩ := List.mem_map.mp hname
        exact ih hrest (href.yields (hscalars e he) ht hs) h

end

/-- A fault in the definitions of a document is that of the first visit of its tour that is not clean. -/
theorem spots_ofDocument {maxDepth : Option Int} {document : Value} {fault : LoadFault}
    (hread : readDefinitions document = .ok definitions)
    (hscalars : ∀ e ∈ definitions, Scalar.ofName? e.1 = none)
    (h : (ofDocument maxDepth document).1 = .error fault) : Spots definitions (tour definitions) fault := by
  have hload := ofDocument_eq_error.mp h
  have hshadowing := shadowing_eq_nil.mpr (List.forall_mem_map.mpr hscalars)
  unfold loadSchemas at hload
  simp only [hread, if_pos hshadowing, fails_bind, not_fails_report, fails_pure, and_false, exists_false,
    or_false] at hload
  exact spots_resolveAll hscalars (List.Subset.refl _) ⟨sound_nil, by simp, List.forall_mem_nil _⟩ hload

/-! ### Documents -/

theorem textKeyed_of_readDefinitions {document : Value} (hread : readDefinitions document = .ok definitions)
    (hkeys : document.isTextKeyed = true) : ∀ d ∈ definitions, d.2.isTextKeyed = true := by
  intro d hd
  obtain ⟨entries, defs, rfl, hdefs, hall⟩ := exists_mem_of_readDefinitions hread
  obtain ⟨e, he, heq⟩ := hall d hd
  obtain ⟨-, -, -, hmap⟩ := Value.get?_of_mem hkeys _ hdefs
  obtain ⟨-, -, -, hvalue⟩ := Value.get?_of_mem hmap e he
  exact heq ▸ hvalue

/-- The text of steps: a dot and the word for a combinator, a dot and a key, or an index in brackets, one after the
other. -/
inductive Spells : List Step → String → Prop
  | start : Spells [] ""
  | combinator {c : Combinator} {word text : String} {steps : List Step} : Combinator.ofName? word = some c →
      Spells steps text → Spells (.combinator c :: steps) ("." ++ word ++ text)
  | key {name text : String} {steps : List Step} : Spells steps text →
      Spells (.key name :: steps) ("." ++ name ++ text)
  | index {i : Nat} {text : String} {steps : List Step} : Spells steps text →
      Spells (.index i :: steps) ("[" ++ toString i ++ "]" ++ text)

theorem spells_steps (steps : List Step) : Spells steps (String.join (steps.map Step.text)) := by
  induction steps with
  | nil => exact .start
  | cons step steps ih =>
      rw [List.map_cons, String.join_cons]
      cases step with
      | combinator c => exact .combinator (Combinator.ofName?_name c) ih
      | key name => exact .key ih
      | index i => exact .index ih

/-- How a rule is said to be broken. -/
inductive Says : Reason → String → Prop
  | unknownName (name : String) : Says (.unknownName name) ("unknown schema name " ++ Text.quote name)
  | unknownCombinator (key : String) : Says (.unknownCombinator key) ("unknown combinator " ++ key)
  | notDefinition (found : String) :
      Says (.notDefinition found) ("definition must be a name or a single-key mapping, got " ++ found)
  | fieldsNotMap : Says .fieldsNotMap "fields must be a mapping"
  | positionsNotList : Says .positionsNotList "positions must be a list"
  | membersNotCollection : Says .membersNotCollection "members must be a list or mapping"
  | branchesNotMap : Says .branchesNotMap "branches must be a mapping of tag to schema"
  | definition (fault : DefinitionFault) : Says (.definition fault) fault.message

theorem says_message (reason : Reason) : Says reason reason.message := by
  cases reason <;> constructor

/-- If a document with texts as keys, in which no number is too long, is not loaded for what stands in its
definitions, and not for a cycle, the message is about the first visit of its tour that breaks a rule: it has
the location of that visit, once, and the reason why it breaks the rule. The steps of the location are written
one after the other and lead to what is visited. Whatever is complete before is well formed and has a meaning. -/
theorem fault_of_first_visit {maxDepth : Option Int} {document : Value} {raised : Raised}
    (hkeys : document.isTextKeyed = true) (hshort : ¬ document.HoldsLong)
    (hread : readDefinitions document = .ok definitions)
    (hscalars : ∀ e ∈ definitions, Scalar.ofName? e.1 = none)
    (h : (attemptDocument maxDepth document).1 = .error raised)
    (hcycle : ∀ names, raised ≠ .own (.cyclic names)) :
    ∃ before v after reason steps rule, tour definitions = before ++ v :: after ∧
      raised = .own (.broken v.location reason) ∧
      (LoadFault.broken v.location reason).message = v.location.name ++ steps ++ ": " ++ rule ∧
      Spells v.location.steps steps ∧ Says reason rule ∧
      v.location.target? definitions = some v.value ∧ Breaks definitions v reason ∧
      (∀ w ∈ before, ∀ reason, ¬ Breaks definitions w reason) ∧
      ∀ location d, .complete location d ∈ before →
        WellFormed definitions d ∧ ∃ s, Denotes definitions d s := by
  rw [attemptDocument_eq] at h
  cases hload : (ofDocument maxDepth document).1 with
  | ok r =>
      rw [hload] at h
      cases h
  | error fault =>
      rw [hload] at h
      obtain rfl : Raised.ofLoadFault fault = raised := Except.error.inj h
      have hplaced := placed_tour (textKeyed_of_readDefinitions hread hkeys)
      cases spots_ofDocument hread hscalars hload with
      | @broken before after v reason htour hclean hbreaks =>
          have hv : v ∈ tour definitions := htour ▸ List.mem_append_right before List.mem_cons_self
          refine ⟨before, v, after, reason, _, _, htour, rfl, rfl, spells_steps _, says_message _,
            hplaced v hv, hbreaks, fun w hw => (hclean w hw).keeps, fun location d hd => ?_⟩
          obtain ⟨s, hs⟩ := (hclean _ hd).meaning location d rfl
          exact ⟨hs.wellFormed, s, hs⟩
      | cyclic names => exact absurd rfl (hcycle names)
      | numberTooLong =>
          obtain ⟨_, hread', d, hd, hunshowable⟩ := exists_unshowable (ofDocument_eq_error.mp hload)
          rw [hread] at hread'
          cases hread'
          exact absurd (holdsLong_of_readDefinitions hread hd hunshowable.holdsLong) hshort

/-- A page that refers to a mark, which has a branch that is no object. -/
def page : List (String × Value) :=
  [("page", combined .tuple (.list [.str "point", .str "mark", .str "nope"])),
    ("point", combined .object (.map [(.str "x", .str "float"), (.str "y", .str "float")])),
    ("mark", combined .object (.map [(.str "at", .str "point"),
      (.str "as", combined .variant (.map [(.str "dot", .str "point"), (.str "none", .str "nothing")]))]))]

/-- The fault of the page is that of the mark, since the tour comes to that before the third position. -/
theorem fault_of_first_visit_page : ∃ before v after, tour page = before ++ v :: after ∧
    (attemptDocument none (document page)).1 =
      .error (.own (.broken v.location (.definition (.branchNotObject "none" .none)))) ∧
    v.location = ⟨"mark", [.combinator .object, .key "as"]⟩ ∧
    v.value = combined .variant (.map [(.str "dot", .str "point"), (.str "none", .str "nothing")]) ∧
    Breaks page v (.definition (.branchNotObject "none" .none)) ∧
    ∀ location d, .complete location d ∈ before → WellFormed page d := by
  have hload : (ofDocument none (document page)).1 = .error (.broken
      ⟨"mark", [.combinator .object, .key "as"]⟩ (.definition (.branchNotObject "none" .none))) :=
    (map_eq_error (f := fun _ => ())).mp (by decide +kernel)
  have hraised : (attemptDocument none (document page)).1 = .error (.own (.broken
      ⟨"mark", [.combinator .object, .key "as"]⟩ (.definition (.branchNotObject "none" .none)))) := by
    rw [attemptDocument_eq, hload]
    rfl
  have hshort : ¬ (document page).HoldsLong := fun hlong =>
    absurd ((Value.written?_eq_none _).mpr hlong) (by decide +kernel)
  obtain ⟨before, v, after, reason, _, _, htour, hfault, -, -, -, htarget, hbreaks, -, hcomplete⟩ :=
    fault_of_first_visit (by decide) hshort (readDefinitions_document (by decide)) (by decide) hraised nofun
  obtain ⟨hlocation, rfl⟩ := LoadFault.broken.inj (Raised.own.inj hfault)
  rw [← hlocation] at htarget
  have hvalue : some (combined .variant _) = some v.value := Eq.trans rfl htarget
  refine ⟨before, v, after, htour, ?_, hlocation.symm, (Option.some.inj hvalue).symm, hbreaks,
    fun location d hd => (hcomplete location d hd).1⟩
  rw [← hlocation]
  exact hraised

end Wireform.Registry
