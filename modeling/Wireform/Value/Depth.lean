import Wireform.Value.Basic

/-!
# Nesting depth

How deeply lists, tuples and maps are nested in a value, and the same measured no further than a bound. The
measure looks at one value after the other, so its own depth does not grow with that of the value.
-/
namespace Wireform
namespace Value

mutual

/-- The number of containers around the innermost one and itself; zero for what holds nothing. -/
def depth : Value → Nat
  | .list items => depthItems items + 1
  | .tuple items => depthItems items + 1
  | .map entries => depthEntries entries + 1
  | _ => 0

def depthItems : List Value → Nat
  | [] => 0
  | item :: items => max (depth item) (depthItems items)

def depthEntries : List (Value × Value) → Nat
  | [] => 0
  | (_, value) :: entries => max (depth value) (depthEntries entries)

end

/-- What stands directly in a container; `none` for a value that is none. -/
def children? : Value → Option (List Value)
  | .list items | .tuple items => some items
  | .map entries => some (entries.map (·.2))
  | _ => none

end Value

/-- A search for the deepest container: the values still to be looked at, the next one first, each with the
number of containers around it, and the greatest depth found so far. -/
structure DepthSearch where
  pending : List (Value × Nat)
  deepest : Nat

namespace DepthSearch

/-- The search for a value and all that is in it. -/
def start (v : Value) : DepthSearch := ⟨[(v, 0)], 0⟩

/-- Looks at one value. What stands in a container comes next, the last part first. Once a depth exceeds the
limit nothing more is looked at. -/
def next (limit : Int) : DepthSearch → DepthSearch
  | ⟨[], deepest⟩ => ⟨[], deepest⟩
  | ⟨(v, around) :: rest, deepest⟩ =>
    match v.children? with
    | none => ⟨rest, deepest⟩
    | some parts =>
      let depth := around + 1
      let more := (parts.map (·, depth)).reverse ++ rest
      if deepest < depth then
        if limit < depth then ⟨[], depth⟩ else ⟨more, depth⟩
      else ⟨more, deepest⟩

/-- The size of some values together. -/
noncomputable def total : List Value → Nat
  | [] => 0
  | v :: values => sizeOf v + total values

theorem total_append (values others : List Value) :
    total (values ++ others) = total values + total others := by
  induction values with
  | nil => simp [total]
  | cons v values ih => simp only [List.cons_append, total, ih, Nat.add_assoc]

theorem total_reverse (values : List Value) : total values.reverse = total values := by
  induction values with
  | nil => rfl
  | cons v values ih => simp only [List.reverse_cons, total_append, total, ih]; omega

/-- The size of all that is still to be looked at. -/
noncomputable def weight (s : DepthSearch) : Nat :=
  total (s.pending.map (·.1))

theorem total_children_lt {v : Value} {parts : List Value} (h : v.children? = some parts) :
    total parts < sizeOf v := by
  have hitems (items : List Value) : total items < sizeOf items := by
    induction items with
    | nil => simp [total]
    | cons item items ih => simp only [total, List.cons.sizeOf_spec]; omega
  have hentries (entries : List (Value × Value)) : total (entries.map (·.2)) < sizeOf entries := by
    induction entries with
    | nil => simp [total]
    | cons e entries ih =>
        have he : sizeOf e = 1 + sizeOf e.1 + sizeOf e.2 := rfl
        simp only [List.map_cons, total, List.cons.sizeOf_spec]
        omega
  cases v with
  | list items | tuple items =>
      obtain rfl := Option.some.inj h
      have := hitems items
      simp only [Value.list.sizeOf_spec, Value.tuple.sizeOf_spec]
      omega
  | map entries =>
      obtain rfl := Option.some.inj h
      have := hentries entries
      simp only [Value.map.sizeOf_spec]
      omega
  | _ => cases h

theorem weight_next_lt (limit : Int) {s : DepthSearch} (h : s.pending ≠ []) :
    (s.next limit).weight < s.weight := by
  match s, h with
  | ⟨(v, around) :: rest, deepest⟩, _ =>
    have hpos : 0 < sizeOf v := by cases v <;> simp +arith
    cases hv : v.children? with
    | none => simp only [next, hv, weight, List.map_cons, total]; omega
    | some parts =>
        have hparts := total_children_lt hv
        have hmore : total (((parts.map (·, around + 1)).reverse ++ rest).map (·.1)) =
            total parts + total (rest.map (·.1)) := by
          simp [List.map_append, List.map_reverse, Function.comp_def, total_append, total_reverse]
        simp only [next, hv]
        split
        · split
          · simp only [weight, List.map_cons, List.map_nil, total]; omega
          · simp only [weight, hmore, List.map_cons, total]; omega
        · simp only [weight, hmore, List.map_cons, total]; omega

/-- The greatest depth when nothing is left to be looked at. -/
def run (limit : Int) (s : DepthSearch) : Nat :=
  match h : s.pending with
  | [] => s.deepest
  | _ :: _ =>
    have : (s.next limit).weight < s.weight := weight_next_lt limit (by simp [h])
    run limit (s.next limit)
termination_by s.weight

theorem run_finished {limit : Int} {s : DepthSearch} (h : s.pending = []) : s.run limit = s.deepest := by
  rw [run]
  split
  · rfl
  · rename_i hcons
    exact absurd (h.symm.trans hcons) nofun

theorem run_next {limit : Int} {s : DepthSearch} (h : s.pending ≠ []) :
    s.run limit = (s.next limit).run limit := by
  rw [run]
  split
  · rename_i hnil
    exact absurd hnil h
  · rfl

end DepthSearch

/-- The depth, counted until it exceeds the limit. -/
def Value.nestingDepth (limit : Int) (v : Value) : Nat :=
  (DepthSearch.start v).run limit

end Wireform
