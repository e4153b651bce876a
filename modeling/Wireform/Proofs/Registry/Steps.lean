import Wireform.Registry.Builder

/-!
# Steps to spare

A builder has a number of steps for the names that it begins. Where they suffice, more of them change nothing:
neither the result nor the run.
-/
namespace Wireform.Registry.Builder

variable {α β : Type} {reference reference' : Lookup} {definitions : List (String × Value)}

theorem bind_apply (x : Building α) (f : α → Building β) (r : Run) :
    (x >>= f) r = (x r).bind fun step =>
      match step.1 with
      | .ok a => f a step.2
      | .error e => some (.error e, step.2) := by
  change (x r).bind _ = _
  congr 1
  funext step
  obtain ⟨result, after⟩ := step
  cases result <;> rfl

theorem modify_bind_apply (g : Run → Run) (f : PUnit → Building β) (r : Run) :
    (modify g >>= f) r = f ⟨⟩ (g r) := rfl

/-- Where the one comes to an end, the other comes to the same end. -/
def Refines (x x' : Building α) : Prop :=
  ∀ r step, x r = some step → x' r = some step

namespace Refines

variable {x x' : Building α}

theorem refl (x : Building α) : Refines x x :=
  fun _ _ h => h

theorem endless (x : Building α) : Refines endless x :=
  nofun

theorem bind {f f' : α → Building β} (h : Refines x x') (hnext : ∀ a, Refines (f a) (f' a)) :
    Refines (x >>= f) (x' >>= f') := by
  intro r step hstep
  rw [bind_apply] at hstep ⊢
  obtain ⟨⟨result, after⟩, hx, hrest⟩ := Option.bind_eq_some_iff.mp hstep
  rw [h r _ hx, Option.bind_some]
  cases result with
  | ok a => exact hnext a after step hrest
  | error e => exact hrest

theorem translating (h : Refines x x') (location : Location) :
    Refines (translating location x) (translating location x') := by
  intro r step hstep
  obtain ⟨_, hx, hrest⟩ := Option.bind_eq_some_iff.mp hstep
  exact Option.bind_eq_some_iff.mpr ⟨_, h r _ hx, hrest⟩

theorem finishing (h : Refines x x') : Refines (finishing x) (finishing x') := by
  intro r step hstep
  obtain ⟨_, hx, hrest⟩ := Option.bind_eq_some_iff.mp hstep
  exact Option.bind_eq_some_iff.mpr ⟨_, h r _ hx, hrest⟩

theorem observing {x x' : Building Schema} (h : Refines x x') (call : Call) :
    Refines (observing call x) (observing call x') := by
  intro r step hstep
  obtain ⟨_, hx, hrest⟩ := Option.bind_eq_some_iff.mp hstep
  exact Option.bind_eq_some_iff.mpr ⟨_, h _ _ hx, hrest⟩

end Refines

/-- References come to the same ends. -/
def RefinesLookup (reference reference' : Lookup) : Prop :=
  ∀ location name, Refines (reference location name) (reference' location name)

mutual

theorem refines_build (href : RefinesLookup reference reference') (location : Location) (d : Value) :
    Refines (build reference location d) (build reference' location d) := by
  match d with
  | .str name =>
      rw [build, build]
      refine Refines.observing ?_ _
      cases Scalar.ofName? name with
      | some kind => exact .refl _
      | none => exact href location name
  | .map [(key, argument)] =>
      rw [build, build]
      refine ((Refines.refl _).bind fun c => Refines.translating ?_ location).observing _
      have hinner := refines_build href (location.step (.combinator c)) argument
      have hfields := refines_fieldsOf href (location.step (.combinator c)) argument
      cases c with
      | optional | nullable | array => exact hinner.bind fun _ => .refl _
      | object | partialObject => exact hfields.bind fun _ => .refl _
      | tuple => exact (refines_positionsOf href _ argument).bind fun _ => .refl _
      | oneOf => exact .refl _
      | variant => exact (refines_branchesOf href _ argument).bind fun _ => .refl _
  | .map [] | .map (_ :: _ :: _) | .null | .bool _ | .int _ | .float _ | .list _ | .tuple _ | .datetime _
  | .day _ | .bytes _ | .set _ | .record _ => exact .refl _

theorem refines_fieldsOf (href : RefinesLookup reference reference') (inside : Location) (d : Value) :
    Refines (fieldsOf reference inside d) (fieldsOf reference' inside d) := by
  match d with
  | .map entries => exact refines_buildFields href inside [] entries
  | .null | .bool _ | .int _ | .float _ | .str _ | .list _ | .tuple _ | .datetime _ | .day _ | .bytes _
  | .set _ | .record _ => exact .refl _

theorem refines_positionsOf (href : RefinesLookup reference reference') (inside : Location) (d : Value) :
    Refines (positionsOf reference inside d) (positionsOf reference' inside d) := by
  match d with
  | .list items => exact refines_buildPositions href inside 0 items
  | .null | .bool _ | .int _ | .float _ | .str _ | .map _ | .tuple _ | .datetime _ | .day _ | .bytes _
  | .set _ | .record _ => exact .refl _

theorem refines_branchesOf (href : RefinesLookup reference reference') (inside : Location) (d : Value) :
    Refines (branchesOf reference inside d) (branchesOf reference' inside d) := by
  match d with
  | .map entries => exact refines_buildBranches href inside entries
  | .null | .bool _ | .int _ | .float _ | .str _ | .list _ | .tuple _ | .datetime _ | .day _ | .bytes _
  | .set _ | .record _ => exact .refl _

theorem refines_buildFields (href : RefinesLookup reference reference') (inside : Location)
    (found : List (String × Schema)) (entries : List (Value × Value)) :
    Refines (buildFields reference inside found entries) (buildFields reference' inside found entries) := by
  match entries with
  | [] => exact .refl _
  | (key, d) :: entries =>
      exact (Refines.refl _).bind fun name => (refines_build href _ d).bind fun s =>
        refines_buildFields href inside (Named.put name s found) entries

theorem refines_buildPositions (href : RefinesLookup reference reference') (inside : Location) (i : Nat)
    (items : List Value) :
    Refines (buildPositions reference inside i items) (buildPositions reference' inside i items) := by
  match items with
  | [] => exact .refl _
  | d :: items =>
      exact (refines_build href _ d).bind fun _ =>
        (refines_buildPositions href inside (i + 1) items).bind fun _ => .refl _

theorem refines_buildBranches (href : RefinesLookup reference reference') (inside : Location)
    (entries : List (Value × Value)) :
    Refines (buildBranches reference inside entries) (buildBranches reference' inside entries) := by
  match entries with
  | [] => exact .refl _
  | (key, d) :: entries =>
      exact (Refines.refl _).bind fun _ => (refines_build href _ d).bind fun _ =>
        (Refines.refl _).bind fun _ => (refines_buildBranches href inside entries).bind fun _ => .refl _

end

theorem refines_fresh (href : RefinesLookup reference reference') (name : String) :
    Refines (fresh definitions reference name) (fresh definitions reference' name) := by
  refine (Refines.refl _).bind fun _ => (Refines.finishing ?_).bind fun _ => .refl _
  cases definitions.lookup name with
  | some d => exact refines_build href ⟨name, []⟩ d
  | none => exact .refl _

theorem refines_consulting {x x' : Building Schema} (h : Refines x x') (name : String) :
    Refines (consulting name x) (consulting name x') := by
  refine Refines.observing ((Refines.refl _).bind fun r => ?_) _
  dsimp only
  cases r.books.built.lookup name with
  | some s => exact .refl _
  | none =>
      by_cases hmem : name ∈ r.books.inProgress
      · simp only [if_pos hmem]
        exact .refl _
      · simpa only [if_neg hmem] using h

theorem refines_named {steps steps' : Nat} (h : steps ≤ steps') (name : String) :
    Refines (named definitions steps name) (named definitions steps' name) := by
  induction steps generalizing steps' name with
  | zero =>
      cases steps' with
      | zero => exact .refl _
      | succ steps' => exact refines_consulting (.endless _) name
  | succ steps ih =>
      obtain ⟨steps', rfl⟩ : ∃ k, steps' = k + 1 := Nat.exists_eq_add_one.mpr (by omega)
      refine refines_consulting (refines_fresh (fun location other => ?_) name) name
      rw [defined, defined]
      split
      · exact ih (by omega) other
      · exact .refl _

theorem refines_allNamed {steps steps' : Nat} (h : steps ≤ steps') (names : List String) :
    Refines (allNamed definitions steps names) (allNamed definitions steps' names) := by
  induction names with
  | nil => exact .refl _
  | cons name names ih => exact (refines_named h name).bind fun _ => ih.bind fun _ => .refl _

end Wireform.Registry.Builder
