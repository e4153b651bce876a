import Wireform.Proofs.Registry.Cycle
import Wireform.Proofs.Registry.Steps

/-!
# Books in order

What holds of the books of a builder at every moment, and of the calls that have ended. A name begun, a name
struck out, a schema kept and a call that ends each keep it, and so does the building of a fresh name as a
whole: after it the names in progress are as before, and the name is done unless something was raised.
-/
namespace Wireform.Registry.Builder

variable {definitions : List (String × Value)} {inProgress : List String} {name : String}

/-- The names in progress are different and have definitions, none of them is done, and the definition of each
mentions the next one. -/
structure Books.InOrder (definitions : List (String × Value)) (b : Books) : Prop where
  nodup : b.inProgress.Nodup
  defined : b.inProgress ⊆ definitions.map Prod.fst
  undone : ∀ name ∈ b.inProgress, name ∉ b.built.map Prod.fst
  chain : b.inProgress.IsChain (Refers definitions)

namespace Books.InOrder

variable {b : Books}

theorem begin (h : b.InOrder definitions) (htrail : Trail definitions b.inProgress name)
    (hname : name ∈ definitions.map Prod.fst) (hnew : name ∉ b.inProgress)
    (hundone : name ∉ b.built.map Prod.fst) :
    Books.InOrder definitions { b with inProgress := b.inProgress ++ [name] } where
  nodup := List.nodup_append_comm.mp (List.nodup_cons.mpr ⟨hnew, h.nodup⟩)
  defined := List.append_subset.mpr ⟨h.defined, List.cons_subset.mpr ⟨hname, List.nil_subset _⟩⟩
  undone := by
    intro n hn
    rcases List.mem_append.mp hn with hn | hn
    · exact h.undone n hn
    · exact List.mem_singleton.mp hn ▸ hundone
  chain := htrail.chain

theorem finish (h : b.InOrder definitions) :
    Books.InOrder definitions { b with inProgress := b.inProgress.dropLast } where
  nodup := h.nodup.sublist (List.dropLast_sublist _)
  defined := List.Subset.trans (List.dropLast_subset _) h.defined
  undone n hn := h.undone n (List.dropLast_subset _ hn)
  chain := h.chain.dropLast

theorem keep (h : b.InOrder definitions) (hname : name ∉ b.inProgress) (s : Schema) :
    Books.InOrder definitions { b with built := b.built ++ [(name, s)] } where
  nodup := h.nodup
  defined := h.defined
  undone := by
    intro n hn hmem
    rw [List.map_append, List.mem_append] at hmem
    rcases hmem with hmem | hmem
    · exact h.undone n hn hmem
    · have heq : n = name := List.mem_singleton.mp hmem
      exact hname (heq ▸ hn)
  chain := h.chain

end Books.InOrder

/-- The names of the calls that a call was made inside of. -/
def Ended.within (e : Ended) : List String :=
  e.callers.filterMap Call.name?

/-- The call was made with the books in order and as the names of its callers tell. It left the names in
progress as it found them, and nothing that was done is lost. -/
structure Ended.Fair (definitions : List (String × Value)) (e : Ended) : Prop where
  inOrder : e.found.InOrder definitions
  within : e.within = e.found.inProgress
  defined : ∀ name, e.call = .named name → name ∈ definitions.map Prod.fst
  restored : e.left.inProgress = e.found.inProgress
  extended : e.found.built <+: e.left.built

/-- The invariant of a run: the books have been in order at all moments, every call that has ended was fair,
and the definitions that were built to the end are those of the names that are done. -/
structure Run.InOrder (definitions : List (String × Value)) (r : Run) : Prop where
  history : ∀ b ∈ r.history, b.InOrder definitions
  ended : ∀ e ∈ r.ended, e.Fair definitions
  completed : r.ended.filterMap Ended.completes? = r.books.built.map Prod.fst
  kept : (r.books.built.map Prod.fst).Nodup

/-- How a run goes on to another moment with the same calls under way. -/
structure Run.Continues (definitions : List (String × Value)) (r after : Run) : Prop where
  inOrder : after.InOrder definitions
  callers : after.callers = r.callers
  inProgress : after.books.inProgress = r.books.inProgress
  built : r.books.built <+: after.books.built

namespace Run

variable {r r' r'' : Run}

theorem InOrder.books (h : r.InOrder definitions) : r.books.InOrder definitions :=
  h.history r.books (List.mem_append_right _ List.mem_cons_self)

theorem InOrder.start : Run.start.InOrder definitions where
  history := by
    intro b hb
    rw [List.mem_singleton.mp hb]
    exact ⟨List.nodup_nil, List.nil_subset _, List.forall_mem_nil _, List.isChain_nil⟩
  ended := List.forall_mem_nil _
  completed := rfl
  kept := List.nodup_nil

theorem Continues.refl (h : r.InOrder definitions) : r.Continues definitions r :=
  ⟨h, rfl, rfl, List.prefix_rfl⟩

theorem Continues.trans (h : r.Continues definitions r') (h' : r'.Continues definitions r'') :
    r.Continues definitions r'' where
  inOrder := h'.inOrder
  callers := h'.callers.trans h.callers
  inProgress := h'.inProgress.trans h.inProgress
  built := h.built.trans h'.built

/-- What is reported does not matter. -/
theorem Continues.report (h : r.InOrder definitions) (log : List Log.Record) :
    r.Continues definitions { r with log := log } where
  inOrder := ⟨h.history, h.ended, h.completed, h.kept⟩
  callers := rfl
  inProgress := rfl
  built := List.prefix_rfl

theorem InOrder.enter (h : r.InOrder definitions) (call : Call) : (r.enter call).InOrder definitions :=
  ⟨h.history, h.ended, h.completed, h.kept⟩

/-- A call is fair if its callers are those of the names in progress and if the run continues inside of it. -/
theorem Continues.fair {call : Call} (h : (r.enter call).Continues definitions r')
    (hr : r.InOrder definitions) (hnames : r.names = r.books.inProgress)
    (hcall : ∀ name, call = .named name → name ∈ definitions.map Prod.fst) (result : Except Raised Schema) :
    Ended.Fair definitions ⟨call, r.callers, r.books, r'.books, result⟩ where
  inOrder := hr.books
  within := hnames
  defined := hcall
  restored := h.inProgress
  extended := h.built

/-- A call that ends goes on with the run that it was made in, unless it is the one that builds the whole
definition of a name. -/
theorem Continues.leave {call : Call} {result : Except Raised Schema}
    (h : (r.enter call).Continues definitions r') (hr : r.InOrder definitions)
    (hnames : r.names = r.books.inProgress)
    (hcall : ∀ name, call = .named name → name ∈ definitions.map Prod.fst)
    (hpart : Ended.completes? ⟨call, r.callers, r.books, r'.books, result⟩ = none) :
    r.Continues definitions (Run.leave call result r r') where
  inOrder :=
    { history := h.inOrder.history
      ended := List.forall_mem_append.mpr
        ⟨h.inOrder.ended, List.forall_mem_singleton.mpr (h.fair hr hnames hcall result)⟩
      completed := by
        simp only [Run.leave, List.filterMap_append, List.filterMap_cons, hpart, List.filterMap_nil,
          List.append_nil]
        exact h.inOrder.completed
      kept := h.inOrder.kept }
  callers := rfl
  inProgress := h.inProgress
  built := h.built

end Run

/-! ### Fresh names -/

/-- The run after the definition of a name was built: the name is struck out, and kept if it has a schema. -/
def Run.close (name : String) (result : Except Raised Schema) (r : Run) : Run :=
  match result with
  | .ok s => r.finish.keep name s
  | .error _ => r.finish

theorem fresh_apply {reference : Lookup} {d : Value} {r after : Run} {result : Except Raised Schema}
    (hlookup : definitions.lookup name = some d)
    (hbuild : build reference ⟨name, []⟩ d (r.begin name) = some (result, after)) :
    fresh definitions reference name r = some (result, after.close name result) := by
  have hfinish : finishing (build reference ⟨name, []⟩ d) (r.begin name) = some (result, after.finish) := by
    rw [finishing, hbuild]
    rfl
  rw [fresh, modify_bind_apply, hlookup, bind_apply, hfinish, Option.bind_some]
  cases result <;> rfl

namespace Run

variable {r after : Run} {d : Value}

theorem InOrder.begin (h : r.InOrder definitions) (htrail : Trail definitions r.books.inProgress name)
    (hname : name ∈ definitions.map Prod.fst) (hnew : name ∉ r.books.inProgress)
    (hundone : name ∉ r.books.built.map Prod.fst) : (r.begin name).InOrder definitions where
  history := List.forall_mem_append.mpr
    ⟨h.history, List.forall_mem_singleton.mpr (h.books.begin htrail hname hnew hundone)⟩
  ended := h.ended
  completed := h.completed
  kept := h.kept

/-- Building the definition of a name that was begun, and then closing it, goes on with the run from before:
either the definition was built to the end and the name is done, or neither. -/
theorem Continues.close {result : Except Raised Schema} (hr : (r.begin name).InOrder definitions)
    (hnames : (r.begin name).names = (r.begin name).books.inProgress)
    (h : ((r.begin name).enter (.build ⟨name, []⟩ d)).Continues definitions after) :
    r.Continues definitions
      ((Run.leave (.build ⟨name, []⟩ d) result (r.begin name) after).close name result) := by
  have hbooks := h.inOrder.books
  have hlast : after.books.inProgress = r.books.inProgress ++ [name] := h.inProgress
  have hdrop : after.books.inProgress.dropLast = r.books.inProgress := by rw [hlast, List.dropLast_concat]
  have hundone : name ∉ after.books.built.map Prod.fst := hbooks.undone name (by simp [hlast])
  have hended := List.forall_mem_append.mpr
    ⟨h.inOrder.ended, List.forall_mem_singleton.mpr (h.fair hr hnames nofun result)⟩
  have hfinished := hbooks.finish
  have hhistory := List.forall_mem_append.mpr
    ⟨h.inOrder.history, List.forall_mem_singleton.mpr hfinished⟩
  cases result with
  | error e =>
      refine ⟨⟨hhistory, hended, ?_, h.inOrder.kept⟩, rfl, hdrop, h.built⟩
      exact (List.filterMap_append ..).trans ((List.append_nil _).trans h.inOrder.completed)
  | ok s =>
      have hkeep : (Run.leave (.build ⟨name, []⟩ d) (.ok s) (r.begin name) after).close name (.ok s) =
          { after with
            books := ⟨after.books.built ++ [(name, s)], after.books.inProgress.dropLast⟩
            past := after.history ++ [⟨after.books.built, after.books.inProgress.dropLast⟩]
            callers := (r.begin name).callers
            ended := after.ended ++ [⟨.build ⟨name, []⟩ d, (r.begin name).callers, (r.begin name).books,
              after.books, .ok s⟩] } := by
        rw [← Named.put_of_not_mem hundone s]
        rfl
      have hnew : name ∉ after.books.inProgress.dropLast := by
        have hnodup := hbooks.nodup
        rw [hlast, List.nodup_append_comm] at hnodup
        exact hdrop ▸ (List.nodup_cons.mp hnodup).1
      rw [hkeep]
      refine ⟨⟨?_, hended, ?_, ?_⟩, rfl, hdrop, h.built.trans (List.prefix_append _ _)⟩
      · exact List.forall_mem_append.mpr
          ⟨hhistory, List.forall_mem_singleton.mpr (hfinished.keep hnew s)⟩
      · rw [List.filterMap_append, h.inOrder.completed, List.map_append]
        rfl
      · rw [List.map_append, List.nodup_append_comm]
        exact List.nodup_cons.mpr ⟨hundone, h.inOrder.kept⟩

end Run

end Wireform.Registry.Builder
