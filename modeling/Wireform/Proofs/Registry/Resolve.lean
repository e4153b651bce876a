import Wireform.Proofs.Registry.Build
import Mathlib.Data.List.Perm.Subperm

/-!
# Resolving all names

Resolving keeps one invariant: whatever has been resolved is what its name denotes. A name that is resolved
denotes the result, and if the definitions can be loaded, resolving succeeds from every sound state: a name in
progress leads to the one at hand, so meeting it again would close a cycle, and the names in progress are
never more than there are definitions.
-/
namespace Wireform.Registry

variable {definitions : List (String × Value)} {p q : Progress}

/-- Every schema resolved so far is the one that its name denotes. -/
def Progress.Sound (definitions : List (String × Value)) (p : Progress) : Prop :=
  ∀ e ∈ p.built, Denotes definitions (.str e.1) e.2

/-- What references yield is what their names denote, and the progress stays sound. -/
def SoundLookup (definitions : List (String × Value)) (reference : Lookup) : Prop :=
  ∀ {location name p s q}, Scalar.ofName? name = none → p.Sound definitions →
    Yields (reference location name) p s q → Denotes definitions (.str name) s ∧ q.Sound definitions

section

variable {reference : Lookup}

theorem sound_through {ps : List (Location × Value)} {ss : List Schema}
    (h : ∀ d ∈ ps.map Prod.snd, ∀ {location p s q}, p.Sound definitions →
      Yields (build reference location d) p s q → Denotes definitions d s ∧ q.Sound definitions)
    (hp : p.Sound definitions) (hthrough : Through reference ps p ss q) :
    List.Forall₂ (Denotes definitions) (ps.map Prod.snd) ss ∧ q.Sound definitions := by
  induction hthrough with
  | nil => exact ⟨.nil, hp⟩
  | cons hs _ ih =>
      simp only [List.map_cons, List.forall_mem_cons] at h
      obtain ⟨hdenotes, hr⟩ := h.1 hp hs
      obtain ⟨hrest, hq⟩ := ih h.2 hr
      exact ⟨.cons hdenotes hrest, hq⟩

/-- A definition that is built denotes what it is built into. -/
theorem sound_build (href : SoundLookup definitions reference) (d : Value) :
    ∀ {location p s q}, p.Sound definitions → Yields (build reference location d) p s q →
      Denotes definitions d s ∧ q.Sound definitions := by
  induction d using definition_induction with
  | text name =>
      intro location p s q hp h
      rcases yields_build_str.mp h with ⟨kind, hkind, rfl, rfl⟩ | ⟨hname, h⟩
      · exact ⟨.scalar hkind, hp⟩
      · exact href hname hp h
  | apply c argument ih =>
      intro location p s q hp h
      obtain ⟨ss, r, hthrough, hassembles, rfl⟩ := yields_build_combined.mp h
      rw [← map_places location] at ih
      obtain ⟨hparts, hr⟩ := sound_through ih hp hthrough
      rw [map_places] at hparts
      exact ⟨denotes_combined.mpr ⟨ss, hparts, hassembles⟩, hr⟩
  | other d htext hcombined =>
      intro location p s q _ h
      exact absurd h (not_yields_build htext hcombined)

theorem total_through {ps : List (Location × Value)} (href : SoundLookup definitions reference)
    (h : ∀ d ∈ ps.map Prod.snd, ∀ location p, p.Sound definitions →
      ∃ s q, Yields (build reference location d) p s q) (hp : p.Sound definitions) :
    ∃ ss q, Through reference ps p ss q := by
  induction ps generalizing p with
  | nil => exact ⟨[], p, .nil p⟩
  | cons t ps ih =>
      simp only [List.map_cons, List.forall_mem_cons] at h
      obtain ⟨s, r, hs⟩ := h.1 t.1 p hp
      obtain ⟨ss, q, hss⟩ := ih h.2 (sound_build href t.2 hp hs).2
      exact ⟨s :: ss, q, .cons hs hss⟩

/-- A well-formed definition is built if every name that it mentions is resolved. -/
theorem total_build (href : SoundLookup definitions reference)
    (hscalars : ∀ e ∈ definitions, Scalar.ofName? e.1 = none) {d : Value}
    (hd : WellFormed definitions d) :
    (∀ name ∈ definitions.map Prod.fst, Mentions d name → ∀ location p, p.Sound definitions →
      ∃ s q, Yields (reference location name) p s q) →
    ∀ location p, p.Sound definitions → ∃ s q, Yields (build reference location d) p s q := by
  induction hd with
  | @scalar name hname =>
      intro _ location p _
      obtain ⟨kind, hkind⟩ := Option.isSome_iff_exists.mp hname
      exact ⟨.scalar kind, p, yields_build_str.mpr (.inl ⟨kind, hkind, rfl, rfl⟩)⟩
  | @reference name hname =>
      intro hmentioned location p hp
      obtain ⟨s, q, h⟩ := hmentioned name hname (.self name) location p hp
      obtain ⟨e, he, rfl⟩ := List.mem_map.mp hname
      exact ⟨s, q, yields_build_str.mpr (.inr ⟨hscalars e he, h⟩)⟩
  | @apply c argument haccepts _ hshaped ih =>
      intro hmentioned location p hp
      have hparts : ∀ d ∈ (places location c argument).map Prod.snd, ∀ location p,
          p.Sound definitions → ∃ s q, Yields (build reference location d) p s q := by
        rw [map_places]
        intro d hd
        exact ih d hd fun name hname hmention => hmentioned name hname (.part hd hmention)
      obtain ⟨ss, r, hthrough⟩ := total_through href hparts hp
      have hdenotes := (sound_through (fun d _ => sound_build href d) hp hthrough).1
      rw [map_places] at hdenotes
      have hobjects : c = .variant → ∀ s ∈ ss, ∃ fields, s = .object fields := by
        intro hc s hs
        obtain ⟨d, hd, hds⟩ := exists_of_forall₂ hdenotes.flip s hs
        exact (hshaped hc d hd).fields hscalars hds
      obtain ⟨s, hs⟩ := exists_assembles haccepts hdenotes.length_eq hobjects
      exact ⟨s, _, yields_build_combined.mpr ⟨ss, r, hthrough, hs, rfl⟩⟩

end

/-- A name is resolved by what is known of it, or else by building its definition while it is in progress. -/
theorem yields_resolve {more : Nat} {inProgress : List String} {location : Location} {name : String}
    {s : Schema} :
    Yields (resolve definitions more inProgress location name) p s q ↔
      (p.built.lookup name = some s ∧ p = q) ∨
      (p.built.lookup name = none ∧ name ∉ inProgress ∧ ∃ d k r, definitions.lookup name = some d ∧
        more = k + 1 ∧
        Yields (build (resolve definitions k (inProgress ++ [name])) ⟨name, []⟩ d) p s r ∧
        q = { r with built := r.built ++ [(name, s)] }) := by
  unfold resolve
  simp only [yields_bind, yields_get, and_assoc, exists_and_left, exists_eq_left']
  cases hbuilt : p.built.lookup name with
  | some t => simp [eq_comm]
  | none =>
      by_cases hmem : name ∈ inProgress
      · simp [hmem]
      · cases hlookup : definitions.lookup name with
        | none => simp [hmem]
        | some d =>
            cases more with
            | zero => simp [hmem]
            | succ k =>
                simp only [hmem, if_false, yields_bind, yields_modify, yields_pure]
                constructor
                · rintro ⟨t, r, ht, _, _, rfl, rfl, rfl⟩
                  exact .inr ⟨trivial, not_false, d, rfl, k, rfl, r, ht, rfl⟩
                · rintro (⟨hsome, -⟩ | ⟨-, -, _, hd, _, hk, r, ht, rfl⟩)
                  · cases hsome
                  · cases hd
                    cases hk
                    exact ⟨s, r, ht, (), _, rfl, rfl, rfl⟩

/-- The invariant of resolving: what names yield is what they denote. -/
theorem sound_resolve (more : Nat) (inProgress : List String) :
    SoundLookup definitions (resolve definitions more inProgress) := by
  induction more generalizing inProgress with
  | zero =>
      intro location name p s q _ hp h
      rcases yields_resolve.mp h with ⟨hbuilt, rfl⟩ | ⟨-, -, _, k, _, -, hk, -⟩
      · exact ⟨hp _ (Named.mem_of_lookup hbuilt), hp⟩
      · cases hk
  | succ more ih =>
      intro location name p s q hname hp h
      rcases yields_resolve.mp h with ⟨hbuilt, rfl⟩ | ⟨-, -, d, k, r, hlookup, hk, hd, rfl⟩
      · exact ⟨hp _ (Named.mem_of_lookup hbuilt), hp⟩
      · cases hk
        obtain ⟨hdenotes, hr⟩ := sound_build (ih _) d hp hd
        have hs : Denotes definitions (.str name) s := .reference hname hlookup hdenotes
        refine ⟨hs, fun e he => ?_⟩
        rcases List.mem_append.mp he with he | he
        · exact hr e he
        · rw [List.mem_singleton.mp he]
          exact hs

theorem mem_of_refers {name other : String} (h : Relation.TransGen (Refers definitions) name other) :
    name ∈ definitions.map Prod.fst := by
  obtain ⟨_, ⟨d, hlookup, -⟩, -⟩ := Relation.TransGen.head'_iff.mp h
  exact List.mem_map_of_mem (Named.mem_of_lookup hlookup)

section

variable {inProgress : List String} {name : String}

/-- The names in progress are fewer than the definitions if another one may be added. -/
theorem length_lt_of_subset (hnodup : inProgress.Nodup) (hsub : inProgress ⊆ definitions.map Prod.fst)
    (hname : name ∈ definitions.map Prod.fst) (hnew : name ∉ inProgress) :
    inProgress.length < definitions.length := by
  have hall : name :: inProgress ⊆ definitions.map Prod.fst := List.cons_subset.mpr ⟨hname, hsub⟩
  have hlength := ((List.nodup_cons.mpr ⟨hnew, hnodup⟩).subperm hall).length_le
  simp only [List.length_cons, List.length_map] at hlength
  omega

/-- A name that all names in progress lead to is not one of them. -/
theorem not_mem_of_lead (hload : Loadable definitions)
    (hlead : ∀ n ∈ inProgress, Relation.TransGen (Refers definitions) n name) : name ∉ inProgress :=
  fun hmem => hload.acyclic name (hlead name hmem)

theorem nodup_of_lead (hload : Loadable definitions) (hnodup : inProgress.Nodup)
    (hlead : ∀ n ∈ inProgress, Relation.TransGen (Refers definitions) n name) :
    (inProgress ++ [name]).Nodup := by
  refine List.nodup_append.mpr ⟨hnodup, List.nodup_singleton name, ?_⟩
  intro n hn m hm heq
  rw [List.mem_singleton.mp hm] at heq
  exact not_mem_of_lead hload hlead (heq ▸ hn)

/-- So the names in progress are fewer than the definitions. -/
theorem length_lt_of_lead (hload : Loadable definitions) (hnodup : inProgress.Nodup)
    (hlead : ∀ n ∈ inProgress, Relation.TransGen (Refers definitions) n name)
    (hname : name ∈ definitions.map Prod.fst) : inProgress.length < definitions.length :=
  length_lt_of_subset hnodup (fun n hn => mem_of_refers (hlead n hn)) hname (not_mem_of_lead hload hlead)

/-- Resolving a name succeeds if all names in progress lead to it, and if there are no fewer steps left than
names that are not in progress. -/
theorem total_resolve (hload : Loadable definitions) {more : Nat} (hnodup : inProgress.Nodup)
    (hmore : definitions.length ≤ more + inProgress.length)
    (hlead : ∀ n ∈ inProgress, Relation.TransGen (Refers definitions) n name)
    (hname : name ∈ definitions.map Prod.fst) (location : Location) (hp : p.Sound definitions) :
    ∃ s q, Yields (resolve definitions more inProgress location name) p s q := by
  induction more generalizing inProgress name location p with
  | zero =>
      have hroom := length_lt_of_lead hload hnodup hlead hname
      omega
  | succ more ih =>
      cases hbuilt : p.built.lookup name with
      | some s => exact ⟨s, p, yields_resolve.mpr (.inl ⟨hbuilt, rfl⟩)⟩
      | none =>
          obtain ⟨d, hlookup⟩ := Named.exists_lookup hname
          have hmentioned : ∀ other ∈ definitions.map Prod.fst, Mentions d other → ∀ location p,
              p.Sound definitions →
              ∃ s q, Yields (resolve definitions more (inProgress ++ [name]) location other) p s q := by
            intro other hother hmention location p hp
            have hrefers : Refers definitions name other := ⟨d, hlookup, hmention⟩
            have hlead' : ∀ n ∈ inProgress ++ [name], Relation.TransGen (Refers definitions) n other := by
              intro n hn
              rcases List.mem_append.mp hn with hn | hn
              · exact (hlead n hn).tail hrefers
              · exact List.mem_singleton.mp hn ▸ .single hrefers
            refine ih (nodup_of_lead hload hnodup hlead) ?_ hlead' hother location hp
            simp only [List.length_append, List.length_singleton]
            omega
          obtain ⟨s, r, hs⟩ := total_build (sound_resolve more _) hload.scalars
            (hload.wellFormed _ (Named.mem_of_lookup hlookup)) hmentioned ⟨name, []⟩ p hp
          exact ⟨s, _, yields_resolve.mpr
            (.inr ⟨hbuilt, not_mem_of_lead hload hlead, d, more, r, hlookup, rfl, hs, rfl⟩)⟩

end

/-- What is resolved are the given names in order, each with the schema that it denotes. -/
theorem sound_resolveAll {names : List String} (hscalars : ∀ name ∈ names, Scalar.ofName? name = none)
    {schemas : List (String × Schema)} (hp : p.Sound definitions)
    (h : Yields (resolveAll definitions names) p schemas q) :
    schemas.map Prod.fst = names ∧ ∀ e ∈ schemas, Denotes definitions (.str e.1) e.2 := by
  induction names generalizing p q schemas with
  | nil =>
      obtain ⟨rfl, -⟩ := yields_pure.mp h
      simp
  | cons name names ih =>
      simp only [resolveAll, yields_bind, yields_pure] at h
      obtain ⟨s, r, hs, rest, _, hrest, rfl, -⟩ := h
      simp only [List.forall_mem_cons] at hscalars
      obtain ⟨hdenotes, hr⟩ := sound_resolve _ _ hscalars.1 hp hs
      obtain ⟨hnames, hall⟩ := ih hscalars.2 hr hrest
      exact ⟨by rw [List.map_cons, hnames], List.forall_mem_cons.mpr ⟨hdenotes, hall⟩⟩

theorem total_resolveAll (hload : Loadable definitions) {names : List String}
    (hnames : names ⊆ definitions.map Prod.fst) (hp : p.Sound definitions) :
    ∃ schemas q, Yields (resolveAll definitions names) p schemas q := by
  induction names generalizing p with
  | nil => exact ⟨[], p, yields_pure.mpr ⟨rfl, rfl⟩⟩
  | cons name names ih =>
      obtain ⟨hname, hrest⟩ := List.cons_subset.mp hnames
      obtain ⟨e, he, rfl⟩ := List.mem_map.mp hname
      obtain ⟨s, r, hs⟩ := total_resolve hload List.nodup_nil (Nat.le_add_right _ _) (by simp) hname
        ⟨e.1, []⟩ hp
      obtain ⟨rest, q, hrest⟩ := ih hrest (sound_resolve _ _ (hload.scalars e he) hp hs).2
      refine ⟨(e.1, s) :: rest, q, ?_⟩
      simp only [resolveAll, yields_bind, yields_pure]
      exact ⟨s, r, hs, rest, q, hrest, rfl, rfl⟩

end Wireform.Registry
