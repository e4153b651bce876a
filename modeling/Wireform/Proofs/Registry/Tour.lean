import Wireform.Proofs.Registry.Build

/-!
# The tour of a document

In which order the definitions of a document come up, and what is looked at where. The tour takes the names in
their order. It goes through a definition depth first, in the order of its argument, and at the first mention
of a name on to the definition of that name. It goes on whatever it comes to: whether anything on the way
breaks a rule is no matter of the tour. Each visit says where it is, and following the steps of the location
in the document leads to what is visited.
-/
namespace Wireform

namespace Value

mutual

/-- Whether the keys of all maps are texts, and those of one map are different, wherever there may be
definitions: in lists and under keys. -/
def isTextKeyed : Value → Bool
  | .list items => areTextKeyed items
  | .map entries => holdTextKeys [] entries
  | _ => true

def areTextKeyed : List Value → Bool
  | [] => true
  | v :: items => isTextKeyed v && areTextKeyed items

/-- The keys are also none of some names. -/
def holdTextKeys (names : List String) : List (Value × Value) → Bool
  | [] => true
  | (.str name, v) :: entries =>
    !names.contains name && isTextKeyed v && holdTextKeys (name :: names) entries
  | _ => false

end

theorem isTextKeyed_of_mem_items {items : List Value} (h : isTextKeyed (.list items) = true) :
    ∀ v ∈ items, isTextKeyed v = true := by
  rw [isTextKeyed] at h
  induction items with
  | nil => simp
  | cons v items ih =>
      rw [areTextKeyed, Bool.and_eq_true] at h
      exact List.forall_mem_cons.mpr ⟨h.1, ih h.2⟩

theorem get?_of_holdTextKeys {names : List String} {entries : List (Value × Value)}
    (h : holdTextKeys names entries = true) :
    ∀ e ∈ entries, ∃ name ∉ names, e.1 = .str name ∧ get? name entries = some e.2 ∧ isTextKeyed e.2 = true := by
  induction entries generalizing names with
  | nil => simp
  | cons e entries ih =>
      obtain ⟨key, v⟩ := e
      cases key with
      | str name =>
          simp only [holdTextKeys, Bool.and_eq_true, Bool.not_eq_true', List.contains_eq_mem,
            decide_eq_false_iff_not] at h
          obtain ⟨⟨hname, hv⟩, hrest⟩ := h
          refine List.forall_mem_cons.mpr ⟨⟨name, hname, rfl, by simp [get?], hv⟩, fun e he => ?_⟩
          obtain ⟨other, hother, hkey, hget, hvalue⟩ := ih hrest e he
          rw [List.mem_cons, not_or] at hother
          refine ⟨other, hother.2, hkey, ?_, hvalue⟩
          rw [get?, if_neg (Ne.symm hother.1), hget]
      | _ => cases h

/-- Under the text of its key every entry is found. -/
theorem get?_of_mem {entries : List (Value × Value)} (h : isTextKeyed (.map entries) = true) :
    ∀ e ∈ entries, ∃ name, e.1 = .str name ∧ get? name entries = some e.2 ∧ isTextKeyed e.2 = true := by
  rw [isTextKeyed] at h
  intro e he
  obtain ⟨name, -, hentry⟩ := get?_of_holdTextKeys h e he
  exact ⟨name, hentry⟩

end Value

namespace Registry

inductive Visit
  /-- A definition is come to. -/
  | reach (location : Location) (d : Value)
  /-- The argument of a combinator is come to. -/
  | argument (location : Location) (c : Combinator) (argument : Value)
  /-- The combinator of a definition takes a part of its argument, which is complete by then. -/
  | take (location : Location) (c : Combinator) (argument : Value) (part : Location × Value)
  /-- A definition is complete: the tour has been through all of it. -/
  | complete (location : Location) (d : Value)

namespace Visit

def location : Visit → Location
  | reach location _ | argument location _ _ | take location _ _ _ | complete location _ => location

/-- The definition or argument that a visit is about. -/
def value : Visit → Value
  | reach _ d | complete _ d => d
  | argument _ _ v => v
  | take _ c v _ => combined c v

end Visit

/-- The names that have been entered, and the visits so far. -/
structure Tour where
  entered : List String
  visits : List Visit

namespace Tour

def visit (t : Tour) (v : Visit) : Tour :=
  { t with visits := t.visits ++ [v] }

/-- How a name is followed. -/
abbrev Follow := String → Tour → Tour

mutual

/-- Goes through a definition. Names of scalars are not followed. -/
def walk (follow : Follow) (location : Location) : Value → Tour → Tour
  | .str name, t =>
    let reached := t.visit (.reach location (.str name))
    let followed := if (Scalar.ofName? name).isSome then reached else follow name reached
    followed.visit (.complete location (.str name))
  | .map [(.str key, argument)], t =>
    let reached := t.visit (.reach location (.map [(.str key, argument)]))
    match Combinator.ofName? key with
    | none => reached
    | some c =>
      let inside := location.step (.combinator c)
      let opened := reached.visit (.argument inside c argument)
      let walked :=
        match c with
        | .optional | .nullable | .array =>
          (walk follow inside argument opened).visit (.take location c argument (inside, argument))
        | .object | .partialObject | .variant =>
          match argument with
          | .map entries => walkEntries follow location c (.map entries) entries opened
          | _ => opened
        | .tuple =>
          match argument with
          | .list items => walkItems follow location c (.list items) 0 items opened
          | _ => opened
        | .oneOf => opened
      walked.visit (.complete location (.map [(.str key, argument)]))
  | d, t => t.visit (.reach location d)

def walkEntries (follow : Follow) (location : Location) (c : Combinator) (argument : Value) :
    List (Value × Value) → Tour → Tour
  | [], t => t
  | (key, d) :: entries, t =>
    let place := (location.step (.combinator c)).step (.key (key.text?.getD ""))
    walkEntries follow location c argument entries
      ((walk follow place d t).visit (.take location c argument (place, d)))

def walkItems (follow : Follow) (location : Location) (c : Combinator) (argument : Value) (i : Nat) :
    List Value → Tour → Tour
  | [], t => t
  | d :: items, t =>
    let place := (location.step (.combinator c)).step (.index i)
    walkItems follow location c argument (i + 1) items
      ((walk follow place d t).visit (.take location c argument (place, d)))

end

/-- Goes on to the definition of a name if it is mentioned for the first time. `more` bounds the names that
have not been entered. -/
def enter (definitions : List (String × Value)) : Nat → Follow
  | 0, _, t => t
  | more + 1, name, t =>
    if name ∈ t.entered then t
    else
      match definitions.lookup name with
      | some d => walk (enter definitions more) ⟨name, []⟩ d { t with entered := name :: t.entered }
      | none => t

/-- The tour of some names in order. -/
def enterAll (definitions : List (String × Value)) (names : List String) (t : Tour) : Tour :=
  names.foldl (fun t name => enter definitions definitions.length name t) t

variable {follow : Follow} {location : Location} {c : Combinator} {argument : Value}

/-- Goes through the definitions at some places, all in the argument of one combinator. -/
def walkPlaces (follow : Follow) (location : Location) (c : Combinator) (argument : Value)
    (places : List (Location × Value)) (t : Tour) : Tour :=
  places.foldl (fun t part => (walk follow part.1 part.2 t).visit (.take location c argument part)) t

theorem walkEntries_eq (entries : List (Value × Value)) (t : Tour) :
    walkEntries follow location c argument entries t =
      walkPlaces follow location c argument (keyPlaces (location.step (.combinator c)) entries) t := by
  induction entries generalizing t with
  | nil => rfl
  | cons e entries ih => exact ih _

theorem walkItems_eq (i : Nat) (items : List Value) (t : Tour) :
    walkItems follow location c argument i items t =
      walkPlaces follow location c argument (indexPlaces (location.step (.combinator c)) i items) t := by
  induction items generalizing i t with
  | nil => rfl
  | cons d items ih => exact ih _ _

/-- On the way through a combinator its argument comes up, and then the definitions in it one by one. -/
theorem walk_combined (t : Tour) :
    walk follow location (combined c argument) t =
      (walkPlaces follow location c argument (places location c argument)
        ((t.visit (.reach location (combined c argument))).visit
          (.argument (location.step (.combinator c)) c argument))).visit
        (.complete location (combined c argument)) := by
  rw [combined, walk, Combinator.ofName?_name]
  cases c with
  | optional | nullable | array | oneOf => rfl
  | object | partialObject | variant =>
      cases argument with
      | map entries => exact congrArg (visit · _) (walkEntries_eq entries _)
      | _ => rfl
  | tuple =>
      cases argument with
      | list items => exact congrArg (visit · _) (walkItems_eq 0 items _)
      | _ => rfl

/-- Nothing else is looked into. -/
theorem walk_other {d : Value} (htext : ∀ name, d ≠ .str name)
    (hcombined : ∀ c argument, d ≠ combined c argument) (t : Tour) :
    walk follow location d t = t.visit (.reach location d) := by
  unfold walk
  split
  · exact absurd rfl (htext _)
  · split
    · rfl
    · rename_i c hc
      rw [← Combinator.name_of_ofName? hc] at hcombined
      exact absurd rfl (hcombined c _)
  · rfl

/-! ### What a tour keeps -/

/-- A visit to a definition at its place, to its argument, or to the definition for a part of its argument, if
what is asked of the definition and its place holds. -/
inductive Visits (Q : Location → Value → Prop) : Visit → Prop
  | reach {location : Location} {d : Value} : Q location d → Visits Q (.reach location d)
  | argument {location : Location} {c : Combinator} {argument : Value} : Q location (combined c argument) →
      Visits Q (.argument (location.step (.combinator c)) c argument)
  | take {location : Location} {c : Combinator} {argument : Value} (part : Location × Value) :
      Q location (combined c argument) → Visits Q (.take location c argument part)
  | complete {location : Location} {d : Value} : Q location d → Visits Q (.complete location d)

section

variable {P : Tour → Prop} {Q : Location → Value → Prop}
  (hvisit : ∀ t v, Visits Q v → P t → P (t.visit v))

include hvisit

theorem walkPlaces_preserves {ps : List (Location × Value)} (hdefinition : Q location (combined c argument))
    (hparts : ∀ part ∈ ps, ∀ t, P t → P (walk follow part.1 part.2 t)) {t : Tour} (ht : P t) :
    P (walkPlaces follow location c argument ps t) := by
  induction ps generalizing t with
  | nil => exact ht
  | cons part ps ih =>
      rw [List.forall_mem_cons] at hparts
      exact ih hparts.2 (hvisit _ _ (.take part hdefinition) (hparts.1 t ht))

/-- What each visit keeps is kept on the way through a definition, if the names in it are followed so. -/
theorem walk_preserves (hfollow : ∀ name t, P t → P (follow name t))
    (hparts : ∀ location c argument, Q location (combined c argument) →
      ∀ part ∈ places location c argument, Q part.1 part.2) (d : Value) :
    ∀ location, Q location d → ∀ t, P t → P (walk follow location d t) := by
  induction d using definition_induction with
  | text name =>
      intro location hat t ht
      have hreached := hvisit t _ (.reach hat) ht
      rw [walk]
      refine hvisit _ _ (.complete hat) ?_
      split
      · exact hreached
      · exact hfollow name _ hreached
  | apply c argument ih =>
      intro location hat t ht
      rw [walk_combined]
      refine hvisit _ _ (.complete hat) (walkPlaces_preserves hvisit hat (fun part hpart => ?_) ?_)
      · exact ih part.2 (mem_parts_of_places hpart) part.1 (hparts _ _ _ hat part hpart)
      · exact hvisit _ _ (.argument hat) (hvisit _ _ (.reach hat) ht)
  | other d htext hcombined =>
      intro location hat t ht
      rw [walk_other htext hcombined]
      exact hvisit t _ (.reach hat) ht

end

/-- Visits are only added. -/
def Grows (follow : Follow) : Prop :=
  ∀ name t, t.visits <+: (follow name t).visits

theorem prefix_visit (t : Tour) (v : Visit) : t.visits <+: (t.visit v).visits :=
  List.prefix_append t.visits [v]

theorem Grows.walk (h : Grows follow) (location : Location) (d : Value) (t : Tour) :
    t.visits <+: (Tour.walk follow location d t).visits :=
  walk_preserves (P := fun t' => t.visits <+: t'.visits) (Q := fun _ _ => True)
    (fun t' v _ ht => ht.trans (prefix_visit t' v)) (fun name t' ht => ht.trans (h name t'))
    (fun _ _ _ _ _ _ => trivial) d location trivial t (List.prefix_refl _)

theorem Grows.walkPlaces (h : Grows follow) (ps : List (Location × Value)) (t : Tour) :
    t.visits <+: (Tour.walkPlaces follow location c argument ps t).visits :=
  walkPlaces_preserves (P := fun t' => t.visits <+: t'.visits) (Q := fun _ _ => True)
    (fun t' v _ ht => ht.trans (prefix_visit t' v)) trivial
    (fun part _ t' ht => ht.trans (h.walk part.1 part.2 t')) (List.prefix_refl _)

variable {definitions : List (String × Value)} {name : String}

theorem enter_of_mem {t : Tour} (h : name ∈ t.entered) (more : Nat) : enter definitions more name t = t := by
  cases more with
  | zero => rfl
  | succ more => rw [enter, if_pos h]

theorem enter_of_lookup {t : Tour} {d : Value} (hnew : name ∉ t.entered)
    (hlookup : definitions.lookup name = some d) (more : Nat) :
    enter definitions (more + 1) name t =
      walk (enter definitions more) ⟨name, []⟩ d { t with entered := name :: t.entered } := by
  simp only [enter, if_neg hnew, hlookup]

/-- A name is passed by, or its definition is gone through. -/
theorem enter_cases (definitions : List (String × Value)) (more : Nat) (name : String) (t : Tour) :
    enter definitions (more + 1) name t = t ∨ ∃ d, definitions.lookup name = some d ∧
      enter definitions (more + 1) name t =
        walk (enter definitions more) ⟨name, []⟩ d { t with entered := name :: t.entered } := by
  by_cases hmem : name ∈ t.entered
  · exact .inl (enter_of_mem hmem _)
  · cases hlookup : definitions.lookup name with
    | none => exact .inl (by simp only [enter, if_neg hmem, hlookup])
    | some d => exact .inr ⟨d, rfl, enter_of_lookup hmem hlookup more⟩

theorem grows_enter (definitions : List (String × Value)) (more : Nat) : Grows (enter definitions more) := by
  induction more with
  | zero => exact fun _ t => List.prefix_refl t.visits
  | succ more ih =>
      intro name t
      rcases enter_cases definitions more name t with h | ⟨d, -, h⟩
      · have hsame := congrArg visits h
        exact hsame ▸ List.prefix_refl t.visits
      · rw [h]
        exact ih.walk ⟨name, []⟩ d { t with entered := name :: t.entered }

theorem grows_enterAll (names : List String) (t : Tour) :
    t.visits <+: (enterAll definitions names t).visits := by
  induction names generalizing t with
  | nil => exact List.prefix_refl _
  | cons name names ih => exact (grows_enter definitions _ name t).trans (ih _)

end Tour

/-- The visits of the whole tour. -/
def tour (definitions : List (String × Value)) : List Visit :=
  (Tour.enterAll definitions (definitions.map Prod.fst) ⟨[], []⟩).visits

/-! ### Places -/

/-- Where a step leads from a definition or an argument. -/
def Step.follow? : Step → Value → Option Value
  | .combinator c, .map entries => Value.get? c.name entries
  | .key text, .map entries => Value.get? text entries
  | .index i, .list items => items[i]?
  | _, _ => none

/-- What the steps of a location lead to inside the definition of its name. -/
def Location.target? (definitions : List (String × Value)) (l : Location) : Option Value :=
  (definitions.lookup l.name).bind fun d => l.steps.foldlM (fun v s => s.follow? v) d

variable {definitions : List (String × Value)} {location : Location}

theorem target?_step (s : Step) :
    (location.step s).target? definitions = (location.target? definitions).bind s.follow? := by
  simp only [Location.target?, Location.step, List.foldlM_append, List.foldlM_cons, List.foldlM_nil, bind_pure,
    Option.bind_eq_bind, Option.bind_assoc]

/-- A definition stands at its place, and all keys in it are texts. -/
structure Stands (definitions : List (String × Value)) (location : Location) (d : Value) : Prop where
  target : location.target? definitions = some d
  textKeyed : d.isTextKeyed = true

section

variable {c : Combinator} {argument : Value}

theorem Stands.inside (h : Stands definitions location (combined c argument)) :
    Stands definitions (location.step (.combinator c)) argument := by
  refine ⟨?_, ?_⟩
  · rw [target?_step, h.target]
    simp [combined, Step.follow?, Value.get?]
  · obtain ⟨_, -, -, hkeys⟩ := Value.get?_of_mem h.textKeyed _ (List.mem_singleton_self _)
    exact hkeys

theorem Stands.entry {entries : List (Value × Value)} (h : Stands definitions location (.map entries)) :
    ∀ place ∈ keyPlaces location entries, Stands definitions place.1 place.2 := by
  intro place hplace
  obtain ⟨e, he, rfl⟩ := List.mem_map.mp hplace
  obtain ⟨name, hname, hget, hkeys⟩ := Value.get?_of_mem h.textKeyed e he
  refine ⟨?_, hkeys⟩
  rw [target?_step, h.target, hname]
  exact hget

theorem Stands.item {items : List Value} (h : Stands definitions location (.list items)) :
    ∀ place ∈ indexPlaces location 0 items, Stands definitions place.1 place.2 := by
  intro place hplace
  obtain ⟨⟨d, i⟩, hi, rfl⟩ := List.mem_map.mp hplace
  have hget : items[i]? = some d := List.mem_zipIdx_iff_getElem?.mp hi
  refine ⟨?_, Value.isTextKeyed_of_mem_items h.textKeyed d (List.mem_of_getElem? hget)⟩
  rw [target?_step, h.target]
  exact hget

/-- If a definition stands at its place, so do the definitions in its argument. -/
theorem Stands.part (h : Stands definitions location (combined c argument)) :
    ∀ part ∈ places location c argument, Stands definitions part.1 part.2 := by
  cases c with
  | optional | nullable | array =>
      intro part hpart
      rw [List.mem_singleton.mp hpart]
      exact h.inside
  | object | partialObject | variant =>
      cases argument with
      | map entries => exact h.inside.entry
      | _ => exact nofun
  | tuple =>
      cases argument with
      | list items => exact h.inside.item
      | _ => exact nofun
  | oneOf => exact nofun

end

/-- A visit is to what stands at its location. -/
def Visit.Placed (definitions : List (String × Value)) (v : Visit) : Prop :=
  v.location.target? definitions = some v.value

theorem placed_visit {t : Tour} {v : Visit} (hv : Tour.Visits (Stands definitions) v)
    (ht : ∀ w ∈ t.visits, w.Placed definitions) : ∀ w ∈ (t.visit v).visits, w.Placed definitions := by
  intro w hw
  rcases List.mem_append.mp hw with hw | hw
  · exact ht w hw
  · rw [List.mem_singleton.mp hw]
    cases hv with
    | reach h | complete h => exact h.target
    | argument h => exact h.inside.target
    | take part h => exact h.target

theorem placed_enter (hkeys : ∀ d ∈ definitions, d.2.isTextKeyed = true) (more : Nat) :
    ∀ name t, (∀ v ∈ t.visits, v.Placed definitions) →
      ∀ v ∈ (Tour.enter definitions more name t).visits, v.Placed definitions := by
  induction more with
  | zero => exact fun _ _ ht => ht
  | succ more ih =>
      intro name t ht
      rcases Tour.enter_cases definitions more name t with h | ⟨d, hlookup, h⟩
      · rwa [h]
      · rw [h]
        have hstands : Stands definitions ⟨name, []⟩ d := by
          refine ⟨?_, hkeys _ (Named.mem_of_lookup hlookup)⟩
          rw [Location.target?, hlookup]
          rfl
        exact Tour.walk_preserves (fun _ _ => placed_visit) ih (fun _ _ _ h => h.part) d _ hstands _ ht

/-- The steps of every visit's location lead to what is visited. -/
theorem placed_tour (hkeys : ∀ d ∈ definitions, d.2.isTextKeyed = true) :
    ∀ v ∈ tour definitions, v.Placed definitions := by
  have hall (names : List String) : ∀ t : Tour, (∀ v ∈ t.visits, v.Placed definitions) →
      ∀ v ∈ (Tour.enterAll definitions names t).visits, v.Placed definitions := by
    induction names with
    | nil => exact fun _ ht => ht
    | cons name names ih => exact fun t ht => ih _ (placed_enter hkeys _ name t ht)
  exact hall _ _ (List.forall_mem_nil _)

/-- The definition of the second name is gone through where the first one mentions it, and not again. -/
example : (tour [("a", .str "b"), ("b", combined .array (.str "integer"))]).map (Location.text ∘ Visit.location) =
    ["a", "b", "b.array", "b.array", "b.array", "b", "b", "a"] := by decide

end Registry
end Wireform
