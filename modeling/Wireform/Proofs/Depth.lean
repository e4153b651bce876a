import Wireform.Schema.Decode
import Wireform.Proofs.Value
import Mathlib.Order.MinMax
import Mathlib.Tactic.Tauto

/-!
# The search for the deepest container

The search looks at one value after the other and stops early. What it finds is nevertheless the depth of the
value, cut off one level past the limit: at every moment the greatest depth found and the depths still to be
found make up the same maximum, and the greatest depth found grows by one level at a time, so it passes the
limit by one level exactly.
-/
namespace Wireform

namespace Value

theorem depthItems_le_iff {items : List Value} {n : Nat} :
    depthItems items ≤ n ↔ ∀ v ∈ items, v.depth ≤ n := by
  induction items with
  | nil => simp [depthItems]
  | cons v items ih => simp [depthItems, ih]

theorem depthEntries_eq (entries : List (Value × Value)) :
    depthEntries entries = depthItems (entries.map (·.2)) := by
  induction entries with
  | nil => rfl
  | cons e entries ih =>
      obtain ⟨key, v⟩ := e
      simp only [depthEntries, depthItems, List.map_cons, ih]

theorem depthEntries_le_iff {entries : List (Value × Value)} {n : Nat} :
    depthEntries entries ≤ n ↔ ∀ e ∈ entries, e.2.depth ≤ n := by
  rw [depthEntries_eq, depthItems_le_iff]
  exact List.forall_mem_map

theorem depth_of_items? {v : Value} {items : List Value} (h : v.items? = some items) :
    v.depth = depthItems items + 1 := by
  cases v with
  | list _ | tuple _ => exact (Option.some.inj h) ▸ rfl
  | _ => cases h

/-- What is under a name, be it missing, is no deeper than what stands in the map. -/
theorem depth_getD_le (name : String) (entries : List (Value × Value)) :
    (getD name entries).depth ≤ depthEntries entries := by
  rw [getD]
  cases h : get? name entries with
  | none => exact Nat.zero_le _
  | some v => exact depthEntries_le_iff.mp le_rfl _ (mem_of_get? h)

/-- What is at a position, be it past the end, is no deeper than the items. -/
theorem depth_getD_items_le (items : List Value) (i : Nat) :
    (items.getD i .null).depth ≤ depthItems items := by
  rw [List.getD_eq_getElem?_getD]
  cases h : items[i]? with
  | none => exact Nat.zero_le _
  | some v => exact depthItems_le_iff.mp le_rfl _ (List.mem_of_getElem? h)

/-- A container `around` levels down stays within `n` levels if it does so itself and with each of its
parts. -/
theorem add_depth_le_iff {v : Value} {parts : List Value} (h : v.children? = some parts) {around n : Nat} :
    around + v.depth ≤ n ↔ around + 1 ≤ n ∧ ∀ part ∈ parts, around + 1 + part.depth ≤ n := by
  have hdepth : v.depth = depthItems parts + 1 := by
    cases v with
    | list items | tuple items =>
        obtain rfl := Option.some.inj h
        rfl
    | map entries =>
        obtain rfl := Option.some.inj h
        exact congrArg (· + 1) (depthEntries_eq entries)
    | _ => cases h
  have hparts := @depthItems_le_iff parts (n - (around + 1))
  constructor
  · intro hle
    have hall := hparts.mp (by omega)
    refine ⟨by omega, fun part hpart => ?_⟩
    have := hall part hpart
    omega
  · rintro ⟨hle, hall⟩
    have := hparts.mpr fun part hpart => by
      have := hall part hpart
      omega
    omega

theorem depth_of_children?_none {v : Value} (h : v.children? = none) : v.depth = 0 := by
  cases v with
  | list items | tuple items | map entries => cases h
  | _ => rfl

end Value

namespace DepthSearch

/-- The greatest depth that a search finds if it looks at everything. -/
def reach (s : DepthSearch) : Nat :=
  s.pending.foldr (fun p found => max (p.2 + p.1.depth) found) s.deepest

theorem reach_le_iff {s : DepthSearch} {n : Nat} :
    s.reach ≤ n ↔ s.deepest ≤ n ∧ ∀ p ∈ s.pending, p.2 + p.1.depth ≤ n := by
  obtain ⟨pending, deepest⟩ := s
  unfold reach
  induction pending with
  | nil => simp
  | cons p pending ih =>
      simp only [List.foldr_cons, Nat.max_le, List.forall_mem_cons] at ih ⊢
      tauto

/-- The depth at which a search stops: the first one past the limit. -/
def stop (limit : Int) : Nat := (max limit 0).toNat + 1

/-- What holds while a search goes on. -/
structure Invariant (limit : Int) (s : DepthSearch) : Prop where
  around_le : ∀ p ∈ s.pending, p.2 ≤ s.deepest
  deepest_le : s.deepest ≤ stop limit
  deepest_lt : s.pending ≠ [] → s.deepest < stop limit

theorem invariant_start (limit : Int) (v : Value) : Invariant limit (start v) where
  around_le := by simp [start]
  deepest_le := Nat.zero_le _
  deepest_lt _ := Nat.succ_pos _

/-- A search past the parts of a container that it has counted. -/
theorem Invariant.push {limit : Int} {rest : List (Value × Nat)} {parts : List Value} {depth deepest : Nat}
    (hrest : ∀ p ∈ rest, p.2 ≤ deepest) (hdepth : depth ≤ deepest) (hlt : deepest < stop limit) :
    Invariant limit ⟨(parts.map (·, depth)).reverse ++ rest, deepest⟩ where
  around_le := by
    intro p hp
    rcases List.mem_append.mp hp with hp | hp
    · obtain ⟨part, -, rfl⟩ := List.mem_map.mp (List.mem_reverse.mp hp)
      exact hdepth
    · exact hrest p hp
  deepest_le := hlt.le
  deepest_lt _ := hlt

/-- Looking at one value keeps the invariant, and the maximum up to the limit. -/
theorem Invariant.next {limit : Int} {s : DepthSearch} (h : Invariant limit s) :
    Invariant limit (s.next limit) ∧ min (s.next limit).reach (stop limit) = min s.reach (stop limit) := by
  match s, h with
  | ⟨[], deepest⟩, h => exact ⟨h, rfl⟩
  | ⟨(v, around) :: rest, deepest⟩, h =>
    have haround : around ≤ deepest := h.around_le _ List.mem_cons_self
    have hrest : ∀ p ∈ rest, p.2 ≤ deepest := fun p hp => h.around_le p (List.mem_cons_of_mem _ hp)
    have hlt : deepest < stop limit := h.deepest_lt (List.cons_ne_nil _ _)
    cases hv : v.children? with
    | none =>
        have hdepth := Value.depth_of_children?_none hv
        have hreach : reach ⟨rest, deepest⟩ = reach ⟨(v, around) :: rest, deepest⟩ := by
          refine eq_of_forall_ge_iff fun n => ?_
          have : deepest ≤ n → around ≤ n := haround.trans
          simp only [reach_le_iff, List.forall_mem_cons, hdepth, Nat.add_zero]
          tauto
        simp only [DepthSearch.next, hv]
        exact ⟨⟨hrest, h.deepest_le, fun _ => hlt⟩, by rw [hreach]⟩
    | some parts =>
        -- The container is at depth `around + 1`, at most one level past the greatest depth so far.
        have hpushed {d : Nat} (hd : d = max deepest (around + 1)) :
            reach ⟨(parts.map (·, around + 1)).reverse ++ rest, d⟩ =
              reach ⟨(v, around) :: rest, deepest⟩ := by
          refine eq_of_forall_ge_iff fun n => ?_
          simp only [reach_le_iff, List.forall_mem_append, List.mem_reverse, List.forall_mem_map,
            List.forall_mem_cons, Value.add_depth_le_iff hv, hd, Nat.max_le]
          tauto
        simp only [DepthSearch.next, hv]
        by_cases hdeeper : deepest < around + 1
        · rw [if_pos hdeeper]
          by_cases hpast : limit < (around + 1 : Nat)
          · have hstop : around + 1 = stop limit := by
              unfold stop at hlt ⊢
              omega
            have hle : stop limit ≤ reach ⟨(v, around) :: rest, deepest⟩ := by
              have hown := (reach_le_iff.mp (le_refl (reach ⟨(v, around) :: rest, deepest⟩))).2 _
                List.mem_cons_self
              exact hstop ▸ ((Value.add_depth_le_iff hv).mp hown).1
            rw [if_pos hpast, min_eq_right hle, hstop]
            exact ⟨⟨by simp, le_refl _, by simp⟩, min_self _⟩
          · have hbelow : around + 1 < stop limit := by
              unfold stop
              omega
            rw [if_neg hpast, hpushed (by omega)]
            exact ⟨.push (fun p hp => (hrest p hp).trans hdeeper.le) le_rfl hbelow, rfl⟩
        · rw [if_neg hdeeper, hpushed (by omega)]
          exact ⟨.push hrest (Nat.not_lt.mp hdeeper) hlt, rfl⟩

/-- A whole search finds the maximum up to the limit. -/
theorem run_eq {limit : Int} {s : DepthSearch} (h : Invariant limit s) :
    s.run limit = min s.reach (stop limit) := by
  induction s using run.induct limit with
  | case1 s hpending =>
      rw [run_finished hpending, reach, hpending]
      exact (min_eq_left h.deepest_le).symm
  | case2 s p rest hpending _ ih =>
      rw [run_next (by simp [hpending])]
      exact (ih h.next.1).trans h.next.2

theorem run_start (limit : Int) (v : Value) : (start v).run limit = min v.depth (stop limit) := by
  rw [run_eq (invariant_start limit v)]
  simp [reach, start]

end DepthSearch

namespace Value

/-- A value is too deep if it is deeper than the bound, whatever the bound. -/
theorem lt_nestingDepth_iff {v : Value} {bound : Int} :
    bound < v.nestingDepth bound ↔ bound < v.depth := by
  rw [nestingDepth, DepthSearch.run_start, DepthSearch.stop]
  omega

theorem checkDepth_eq (v : Value) (bound : Int) :
    v.checkDepth bound =
      if v.depth ≤ bound then .ok ()
      else if bound.natAbs < Numeral.tooLarge then
        .error (.tooDeep ⟨"nesting depth at most " ++ toString bound, v⟩)
      else .error .boundTooLong := by
  unfold checkDepth
  by_cases hdeep : bound < v.depth
  · rw [if_pos (lt_nestingDepth_iff.mpr hdeep), if_neg (not_le.mpr hdeep), Numeral.decimal?]
    split
    · rename_i text htext
      split at htext
      · rename_i hshort
        rw [if_pos hshort, ← Option.some.inj htext]
      · cases htext
    · rename_i htext
      split at htext
      · cases htext
      · rename_i hlong
        rw [if_neg hlong]
  · rw [if_neg (mt lt_nestingDepth_iff.mp hdeep), if_pos (not_lt.mp hdeep)]

end Value
end Wireform
