import Wireform.Value.Basic
import Wireform.Proofs.Value
import Mathlib.Data.List.Nodup

/-!
# Things with different names

Looking up what belongs to a name, and what remains of a list when things with the same name are made one.
-/
namespace Wireform.Named

variable {α β : Type}

theorem mem_of_lookup {name : String} {a : α} {things : List (String × α)}
    (h : things.lookup name = some a) : (name, a) ∈ things := by
  obtain ⟨before, after, rfl, -⟩ := List.lookup_eq_some_iff.mp h
  simp

theorem isSome_lookup {name : String} {things : List (String × α)} :
    (things.lookup name).isSome ↔ name ∈ things.map Prod.fst := by
  constructor
  · intro h
    obtain ⟨a, ha⟩ := Option.isSome_iff_exists.mp h
    exact List.mem_map_of_mem (mem_of_lookup ha)
  · intro h
    rw [List.lookup_isSome_iff]
    obtain ⟨t, ht, rfl⟩ := List.mem_map.mp h
    exact ⟨t, ht, by simp⟩

theorem exists_lookup {name : String} {things : List (String × α)} (h : name ∈ things.map Prod.fst) :
    ∃ a, things.lookup name = some a :=
  Option.isSome_iff_exists.mp (isSome_lookup.mpr h)

/-- With different names, everything is found under its name. -/
theorem lookup_eq_some_iff_mem {things : List (String × α)} (hnames : (things.map Prod.fst).Nodup)
    {name : String} {a : α} : things.lookup name = some a ↔ (name, a) ∈ things := by
  constructor
  · exact mem_of_lookup
  · intro h
    obtain ⟨b, hb⟩ := exists_lookup (List.mem_map_of_mem h)
    have heq : (name, b) = (name, a) := List.inj_on_of_nodup_map hnames (mem_of_lookup hb) h rfl
    cases heq
    exact hb

/-- With different names, the order does not matter. -/
theorem lookup_perm {things others : List (String × α)} (h : things.Perm others)
    (hnames : (things.map Prod.fst).Nodup) (name : String) :
    things.lookup name = others.lookup name := by
  have hothers : (others.map Prod.fst).Nodup := (h.map Prod.fst).nodup_iff.mp hnames
  apply Option.ext
  intro a
  rw [lookup_eq_some_iff_mem hnames, lookup_eq_some_iff_mem hothers, h.mem_iff]

theorem keys_put (name : String) (a : α) (things : List (String × α)) :
    (put name a things).map Prod.fst =
      if name ∈ things.map Prod.fst then things.map Prod.fst else things.map Prod.fst ++ [name] := by
  induction things with
  | nil => rfl
  | cons t things ih =>
      obtain ⟨n, b⟩ := t
      by_cases hn : n = name
      · simp [put, hn]
      · simp only [put, if_neg hn, List.map_cons, ih, List.mem_cons, Ne.symm hn, false_or]
        split <;> rfl

theorem put_of_not_mem {name : String} {things : List (String × α)} (h : name ∉ things.map Prod.fst)
    (a : α) : put name a things = things ++ [(name, a)] := by
  induction things with
  | nil => rfl
  | cons t things ih =>
      obtain ⟨n, b⟩ := t
      simp only [List.map_cons, List.mem_cons, not_or] at h
      rw [put, if_neg (Ne.symm h.1), ih h.2, List.cons_append]

theorem nodup_distinct (things : List (String × α)) : ((distinct things).map Prod.fst).Nodup := by
  have hput (name : String) (a : α) (found : List (String × α)) (h : (found.map Prod.fst).Nodup) :
      ((put name a found).map Prod.fst).Nodup := by
    rw [keys_put]
    split
    · exact h
    · rename_i hnew
      refine List.nodup_append.mpr ⟨h, List.nodup_singleton name, fun n hn m hm heq => ?_⟩
      rw [List.mem_singleton.mp hm] at heq
      exact hnew (heq ▸ hn)
  have hfold : ∀ things found : List (String × α), (found.map Prod.fst).Nodup →
      ((things.foldl (fun found t => put t.1 t.2 found) found).map Prod.fst).Nodup := by
    intro things
    induction things with
    | nil => exact fun _ h => h
    | cons t things ih => exact fun found h => ih _ (hput t.1 t.2 found h)
  exact hfold things [] List.nodup_nil

/-- Things with different names stay as they are. -/
theorem distinct_of_nodup {things : List (String × α)} (h : (things.map Prod.fst).Nodup) :
    distinct things = things := by
  have hfold : ∀ things found : List (String × α), ((found ++ things).map Prod.fst).Nodup →
      things.foldl (fun found t => put t.1 t.2 found) found = found ++ things := by
    intro things
    induction things with
    | nil => simp
    | cons t things ih =>
        intro found h
        have hnew : t.1 ∉ found.map Prod.fst := by
          intro hmem
          rw [List.map_append, List.nodup_append] at h
          exact h.2.2 _ hmem _ (by simp) rfl
        rw [List.foldl_cons, put_of_not_mem hnew, ih _ (by simpa using h)]
        simp
  exact hfold things [] h

theorem lookup_cons (name : String) (t : String × α) (things : List (String × α)) :
    (t :: things).lookup name = if name = t.1 then some t.2 else things.lookup name := by
  by_cases h : name = t.1
  · rw [if_pos h, List.lookup_cons, beq_iff_eq.mpr h]
  · rw [if_neg h, List.lookup_cons, beq_eq_false_iff_ne.mpr h]

/-! ### The last thing of a name -/

theorem lookup_put (name other : String) (a : α) (things : List (String × α)) :
    (put name a things).lookup other = if other = name then some a else things.lookup other := by
  induction things with
  | nil => exact lookup_cons ..
  | cons t things ih =>
      obtain ⟨n, b⟩ := t
      by_cases hn : n = name
      · rw [put, if_pos hn, lookup_cons, lookup_cons, hn]
        split <;> rfl
      · rw [put, if_neg hn, lookup_cons, lookup_cons, ih]
        by_cases h : other = n
        · rw [if_pos h, if_pos h, if_neg (h ▸ hn)]
        · rw [if_neg h, if_neg h]

/-- Setting things one after the other, what is found under a name is what was set last. -/
theorem lookup_foldl_put (name : String) (things found : List (String × α)) :
    (things.foldl (fun found t => put t.1 t.2 found) found).lookup name =
      (things.reverse.lookup name).or (found.lookup name) := by
  induction things generalizing found with
  | nil => rfl
  | cons t things ih =>
      rw [List.foldl_cons, ih, lookup_put, List.reverse_cons, List.lookup_append, Option.or_assoc,
        lookup_cons, List.lookup_nil]
      congr 1
      split <;> rfl

theorem lookup_distinct (name : String) (things : List (String × α)) :
    (distinct things).lookup name = things.reverse.lookup name := by
  rw [distinct, lookup_foldl_put, List.lookup_nil, Option.or_none]

theorem mem_of_mem_distinct {t : String × α} {things : List (String × α)} (h : t ∈ distinct things) :
    t ∈ things := by
  have hlookup := (lookup_eq_some_iff_mem (nodup_distinct things)).mpr h
  rw [lookup_distinct] at hlookup
  exact List.mem_reverse.mp (mem_of_lookup hlookup)

/-- Only things with different names all stay. -/
theorem distinct_eq_self {things : List (String × α)} :
    distinct things = things ↔ (things.map Prod.fst).Nodup :=
  ⟨fun h => h ▸ nodup_distinct things, distinct_of_nodup⟩

/-- Setting things one after the other, the names that are new are added, each at its first place. -/
theorem keys_foldl_put (things found : List (String × α)) :
    (things.foldl (fun found t => put t.1 t.2 found) found).map Prod.fst =
      found.map Prod.fst ++
        ((things.map Prod.fst).filter fun name => name ∉ found.map Prod.fst).eraseDups := by
  induction things generalizing found with
  | nil => simp
  | cons t things ih =>
      rw [List.foldl_cons, ih, keys_put, List.map_cons]
      by_cases hmem : t.1 ∈ found.map Prod.fst
      · rw [if_pos hmem, List.filter_cons_of_neg (by simpa using hmem)]
      · rw [if_neg hmem, List.filter_cons_of_pos (by simpa using hmem), List.eraseDups_cons,
          List.append_assoc, List.singleton_append, List.filter_filter]
        congr 3
        refine List.filter_congr fun name _ => ?_
        rw [Bool.eq_iff_iff]
        simp [-List.mem_map, not_or, and_comm]

/-- Things with the same name made one, the names stay at their first places. -/
theorem keys_distinct (things : List (String × α)) :
    (distinct things).map Prod.fst = (things.map Prod.fst).eraseDups := by
  rw [distinct, keys_foldl_put]
  simp

/-! ### The first thing of a name -/

theorem lookup_setDefault (name other : String) (a : α) (things : List (String × α)) :
    (setDefault name a things).lookup other =
      (things.lookup other).or (if other = name then some a else none) := by
  unfold setDefault
  split
  · rename_i b hb
    split
    · rename_i heq
      rw [heq, hb, Option.some_or]
    · rw [Option.or_none]
  · rw [List.lookup_append, lookup_cons, List.lookup_nil]

/-- Adding things one after the other, what is found under a name is what was added first. -/
theorem lookup_foldl_setDefault (name : String) (things found : List (String × α)) :
    (things.foldl (fun found t => setDefault t.1 t.2 found) found).lookup name =
      (found.lookup name).or (things.lookup name) := by
  induction things generalizing found with
  | nil => rw [List.foldl_nil, List.lookup_nil, Option.or_none]
  | cons t things ih =>
      rw [List.foldl_cons, ih, lookup_setDefault, Option.or_assoc, lookup_cons]
      congr 1
      split <;> rfl

/-- What remains of a list without the things whose name was seen, or occurred earlier. -/
def unseen (seen : List String) : List (String × α) → List (String × α)
  | [] => []
  | t :: things => if t.1 ∈ seen then unseen seen things else t :: unseen (t.1 :: seen) things

/-- Dropping what a name has besides the first thing does not change what is found under it. -/
theorem lookup_unseen {name : String} {seen : List String} (h : name ∉ seen) (things : List (String × α)) :
    (unseen seen things).lookup name = things.lookup name := by
  induction things generalizing seen with
  | nil => rfl
  | cons t things ih =>
      rw [unseen, lookup_cons]
      by_cases heq : name = t.1
      · rw [if_neg (heq ▸ h), lookup_cons, if_pos heq, if_pos heq]
      · rw [if_neg heq]
        split
        · exact ih h
        · rw [lookup_cons, if_neg heq]
          exact ih (List.not_mem_cons_of_ne_of_not_mem heq h)

/-- Making things one does not look at them. -/
theorem distinct_map (f : α → β) (things : List (String × α)) :
    distinct (things.map fun t => (t.1, f t.2)) = (distinct things).map fun t => (t.1, f t.2) := by
  have hput (name : String) (a : α) (found : List (String × α)) :
      put name (f a) (found.map fun t => (t.1, f t.2)) = (put name a found).map fun t => (t.1, f t.2) := by
    induction found with
    | nil => rfl
    | cons t found ih =>
        rw [List.map_cons, put, put, ih]
        split <;> rfl
  have hfold : ∀ things found : List (String × α),
      (things.map fun t => (t.1, f t.2)).foldl (fun found t => put t.1 t.2 found)
          (found.map fun t => (t.1, f t.2)) =
        (things.foldl (fun found t => put t.1 t.2 found) found).map fun t => (t.1, f t.2) := by
    intro things
    induction things with
    | nil => exact fun _ => rfl
    | cons t things ih =>
        intro found
        rw [List.map_cons, List.foldl_cons, List.foldl_cons, hput, ih]
  exact hfold things []

/-- Making things one commutes with turning their names into keys. -/
theorem distinct_map_str (f : α → β) (things : List (String × α)) :
    Value.distinct (things.map fun t => (Value.str t.1, f t.2)) =
      (distinct things).map fun t => (.str t.1, f t.2) := by
  have hput (name : String) (a : α) (found : List (String × α)) :
      Value.put (.str name) (f a) (found.map fun t => (Value.str t.1, f t.2)) =
        (put name a found).map fun t => (.str t.1, f t.2) := by
    induction found with
    | nil => rfl
    | cons t found ih =>
        obtain ⟨n, b⟩ := t
        simp only [List.map_cons, Value.put, put, Value.sameKey_str, Value.str.injEq, ih]
        split <;> rfl
  have hfold : ∀ things found : List (String × α),
      (things.map fun t => (Value.str t.1, f t.2)).foldl
          (fun entries p => Value.put p.1 p.2 entries) (found.map fun t => (.str t.1, f t.2)) =
        (things.foldl (fun found t => put t.1 t.2 found) found).map fun t => (.str t.1, f t.2) := by
    intro things
    induction things with
    | nil => exact fun _ => rfl
    | cons t things ih =>
        intro found
        rw [List.map_cons, List.foldl_cons, List.foldl_cons, hput, ih]
  exact hfold things []

end Wireform.Named
