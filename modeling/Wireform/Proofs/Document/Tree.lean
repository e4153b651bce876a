import Wireform.Document.Store
import Mathlib.Data.List.Nodup
import Mathlib.Data.List.Perm.Subperm

/-!
# Documents that are trees

A document in which no cell stands in two places. Unfolding it gives the value that it stands for, and what
becomes of other cells does not matter to it.
-/
namespace Wireform.Document

mutual

/-- `Holds s p v ns`: the part is a tree of cells that stands for the value, and the cells are the given
ones, one for each place. -/
inductive Holds (s : Store) : Part → Value → List Nat → Prop
  | value {v : Value} : (∀ entries, v ≠ .map entries) → Holds s (.value v) v []
  | list {n : Nat} {items : List Part} {vs : List Value} {ns : List Nat} :
      s.cells[n]? = some (.list items) → HoldItems s items vs ns → Holds s (.cell n) (.list vs) (n :: ns)
  | pairs {n : Nat} {items : List (Part × Part)} {vs : List Value} {ns : List Nat} :
      s.cells[n]? = some (.pairs items) → HoldPairs s items vs ns → Holds s (.cell n) (.list vs) (n :: ns)
  | map {n : Nat} {parts : List (Value × Part)} {entries : List (Value × Value)} {ns : List Nat} :
      s.cells[n]? = some (.map parts) → HoldEntries s parts entries ns →
      Holds s (.cell n) (.map entries) (n :: ns)
  | set {n : Nat} {items : List Value} : s.cells[n]? = some (.set items) →
      Holds s (.cell n) (.set items) [n]

inductive HoldItems (s : Store) : List Part → List Value → List Nat → Prop
  | nil : HoldItems s [] [] []
  | cons {p : Part} {v : Value} {ps : List Part} {vs : List Value} {ms ns : List Nat} :
      Holds s p v ms → HoldItems s ps vs ns → HoldItems s (p :: ps) (v :: vs) (ms ++ ns)

inductive HoldPairs (s : Store) : List (Part × Part) → List Value → List Nat → Prop
  | nil : HoldPairs s [] [] []
  | cons {p q : Part} {v w : Value} {ps : List (Part × Part)} {vs : List Value} {ls ms ns : List Nat} :
      Holds s p v ls → Holds s q w ms → HoldPairs s ps vs ns →
      HoldPairs s ((p, q) :: ps) (.tuple [v, w] :: vs) (ls ++ (ms ++ ns))

inductive HoldEntries (s : Store) : List (Value × Part) → List (Value × Value) → List Nat → Prop
  | nil : HoldEntries s [] [] []
  | cons (key : Value) {p : Part} {v : Value} {ps : List (Value × Part)} {es : List (Value × Value)}
      {ms ns : List Nat} : Holds s p v ms → HoldEntries s ps es ns →
      HoldEntries s ((key, p) :: ps) ((key, v) :: es) (ms ++ ns)

end

/-- What has been unfolded so far. -/
abbrev Memo := Array (Option Value)

variable {α β : Type}

/-- Wherever nothing is known of the cells, the step gives the result, and it finds out about no other cell. -/
def Reads (x : StateM Memo α) (ns : List Nat) (a : α) : Prop :=
  ∀ memo : Memo, (∀ n ∈ ns, memo.getD n none = none) →
    (x.run memo).1 = a ∧ ∀ n ∉ ns, (x.run memo).2.getD n none = memo.getD n none

theorem reads_pure (a : α) : Reads (pure a) [] a :=
  fun _ _ => ⟨rfl, fun _ _ => rfl⟩

theorem Reads.bind {x : StateM Memo α} {f : α → StateM Memo β} {ms ns : List Nat} {a : α} {b : β}
    (hx : Reads x ms a) (hf : Reads (f a) ns b) (hdisjoint : ms.Disjoint ns) :
    Reads (x >>= f) (ms ++ ns) b := by
  intro memo hmemo
  obtain ⟨ha, hms⟩ := hx memo fun n hn => hmemo n (List.mem_append_left _ hn)
  have hnext : ∀ n ∈ ns, (x.run memo).2.getD n none = none := by
    intro n hn
    rw [hms n fun hmem => hdisjoint hmem hn]
    exact hmemo n (List.mem_append_right _ hn)
  obtain ⟨hb, hns⟩ := hf _ hnext
  have hrun : (x >>= f).run memo = (f a).run (x.run memo).2 := by
    rw [← ha]
    rfl
  rw [hrun]
  refine ⟨hb, fun n hn => ?_⟩
  rw [List.mem_append, not_or] at hn
  rw [hns n hn.2, hms n hn.1]

theorem Reads.map {x : StateM Memo α} {ns : List Nat} {a : α} (h : Reads x ns a) (f : α → β) :
    Reads (f <$> x) ns (f a) := by
  intro memo hmemo
  obtain ⟨ha, hns⟩ := h memo hmemo
  exact ⟨congrArg f ha, hns⟩

/-- A cell is unfolded once, with a blank in its place meanwhile. -/
def once (n : Nat) (blank : Value) (x : StateM Memo Value) : StateM Memo Value := do
  match (← get).getD n none with
  | some v => return v
  | none => do
    modify (·.setIfInBounds n (some blank))
    let v ← x
    modify (·.setIfInBounds n (some v))
    return v

theorem reads_once {n : Nat} {blank v : Value} {x : StateM Memo Value} {ns : List Nat} (hn : n ∉ ns)
    (hx : Reads x ns v) : Reads (once n blank x) (n :: ns) v := by
  intro memo hmemo
  have hset (memo : Memo) (w : Value) {m : Nat} (hm : m ≠ n) :
      (memo.setIfInBounds n (some w)).getD m none = memo.getD m none := by
    simp [Array.getD_eq_getD_getElem?, Array.getElem?_setIfInBounds_ne hm.symm]
  have hblank : ∀ m ∈ ns, (memo.setIfInBounds n (some blank)).getD m none = none := by
    intro m hm
    rw [hset]
    · exact hmemo m (List.mem_cons_of_mem _ hm)
    · rintro rfl
      exact hn hm
  obtain ⟨hv, hns⟩ := hx _ hblank
  have hrun : (once n blank x).run memo =
      (v, (x.run (memo.setIfInBounds n (some blank))).2.setIfInBounds n (some v)) := by
    have hnone := hmemo n List.mem_cons_self
    unfold once
    rw [StateT.run_bind]
    change StateT.run (match memo.getD n none with | some v => _ | none => _) memo = _
    rw [hnone, ← hv]
    rfl
  rw [hrun]
  refine ⟨rfl, fun m hm => ?_⟩
  rw [List.mem_cons, not_or] at hm
  rw [hset _ _ hm.1, hns m hm.2, hset _ _ hm.1]

variable {s : Store}

/-- What is inside a cell, unfolded. -/
def inside (s : Store) (more : Nat) : Cell → StateM Memo Value
  | .list items => Value.list <$> items.mapM (s.unfold more)
  | .pairs items =>
    Value.list <$> items.mapM fun p => do
      let first ← s.unfold more p.1
      let second ← s.unfold more p.2
      pure (Value.tuple [first, second])
  | .map entries =>
    Value.map <$> entries.mapM fun e => do
      let v ← s.unfold more e.2
      pure (e.1, v)
  | .set items => pure (Value.set items)

theorem unfold_value (more : Nat) (v : Value) : s.unfold more (.value v) = pure v := by
  cases more <;> rfl

theorem unfold_cell (more n : Nat) :
    s.unfold (more + 1) (.cell n) = once n (s.cell n).blank (inside s more (s.cell n)) := by
  rw [Store.unfold]
  unfold once inside
  congr
  funext memo
  cases memo.getD n none with
  | some v => rfl
  | none => cases s.cell n <;> rfl

theorem cell_eq {n : Nat} {c : Cell} (h : s.cells[n]? = some c) : s.cell n = c := by
  rw [Store.cell, Array.getD_eq_getD_getElem?, h, Option.getD_some]

mutual

/-- A tree of cells is unfolded to the value it stands for. -/
theorem reads_unfold {p : Part} {v : Value} {ns : List Nat} (h : Holds s p v ns) (hnodup : ns.Nodup)
    {more : Nat} (hmore : ns.length ≤ more) : Reads (s.unfold more p) ns v := by
  cases h with
  | value =>
      rw [unfold_value]
      exact reads_pure v
  | list hcell hitems =>
      obtain ⟨more, rfl⟩ := Nat.exists_eq_add_of_le' (Nat.lt_of_lt_of_le (Nat.succ_pos _) hmore)
      rw [unfold_cell, cell_eq hcell]
      have hn := List.nodup_cons.mp hnodup
      exact reads_once hn.1 ((reads_items hitems hn.2 (Nat.le_of_succ_le_succ hmore)).map Value.list)
  | pairs hcell hitems =>
      obtain ⟨more, rfl⟩ := Nat.exists_eq_add_of_le' (Nat.lt_of_lt_of_le (Nat.succ_pos _) hmore)
      rw [unfold_cell, cell_eq hcell]
      have hn := List.nodup_cons.mp hnodup
      exact reads_once hn.1 ((reads_pairs hitems hn.2 (Nat.le_of_succ_le_succ hmore)).map Value.list)
  | map hcell hentries =>
      obtain ⟨more, rfl⟩ := Nat.exists_eq_add_of_le' (Nat.lt_of_lt_of_le (Nat.succ_pos _) hmore)
      rw [unfold_cell, cell_eq hcell]
      have hn := List.nodup_cons.mp hnodup
      exact reads_once hn.1 ((reads_entries hentries hn.2 (Nat.le_of_succ_le_succ hmore)).map Value.map)
  | set hcell =>
      obtain ⟨more, rfl⟩ := Nat.exists_eq_add_of_le' (Nat.lt_of_lt_of_le (Nat.succ_pos _) hmore)
      rw [unfold_cell, cell_eq hcell]
      exact reads_once List.not_mem_nil (reads_pure _)

theorem reads_items {ps : List Part} {vs : List Value} {ns : List Nat} (h : HoldItems s ps vs ns)
    (hnodup : ns.Nodup) {more : Nat} (hmore : ns.length ≤ more) :
    Reads (ps.mapM (s.unfold more)) ns vs := by
  cases h with
  | nil => exact reads_pure []
  | cons hp hps =>
      rw [List.length_append] at hmore
      obtain ⟨hms, hns, hdisjoint⟩ := List.nodup_append'.mp hnodup
      rw [List.mapM_cons]
      exact (reads_unfold hp hms (by omega)).bind
        ((reads_items hps hns (by omega)).map _) hdisjoint

theorem reads_pairs {ps : List (Part × Part)} {vs : List Value} {ns : List Nat}
    (h : HoldPairs s ps vs ns) (hnodup : ns.Nodup) {more : Nat} (hmore : ns.length ≤ more) :
    Reads (ps.mapM fun p => do
      let first ← s.unfold more p.1
      let second ← s.unfold more p.2
      pure (Value.tuple [first, second])) ns vs := by
  cases h with
  | nil => exact reads_pure []
  | cons hp hq hps =>
      simp only [List.length_append] at hmore
      obtain ⟨hls, hns, hdisjoint⟩ := List.nodup_append'.mp hnodup
      obtain ⟨hms, hns, hdisjoint'⟩ := List.nodup_append'.mp hns
      rw [List.mapM_cons]
      simp only [bind_assoc, pure_bind]
      exact (reads_unfold hp hls (by omega)).bind
        ((reads_unfold hq hms (by omega)).bind ((reads_pairs hps hns (by omega)).map _) hdisjoint') hdisjoint

theorem reads_entries {ps : List (Value × Part)} {es : List (Value × Value)} {ns : List Nat}
    (h : HoldEntries s ps es ns) (hnodup : ns.Nodup) {more : Nat} (hmore : ns.length ≤ more) :
    Reads (ps.mapM fun e => do
      let v ← s.unfold more e.2
      pure (e.1, v)) ns es := by
  cases h with
  | nil => exact reads_pure []
  | cons key hp hps =>
      rw [List.length_append] at hmore
      obtain ⟨hms, hns, hdisjoint⟩ := List.nodup_append'.mp hnodup
      rw [List.mapM_cons]
      simp only [bind_assoc, pure_bind]
      exact (reads_unfold hp hms (by omega)).bind ((reads_entries hps hns (by omega)).map _) hdisjoint

end

/-! ### Cells that a tree has, and cells that it has not -/

theorem lt_size {n : Nat} {c : Cell} (h : s.cells[n]? = some c) : n < s.cells.size :=
  (Array.getElem?_eq_some_iff.mp h).1

mutual

theorem Holds.lt_size {p : Part} {v : Value} {ns : List Nat} (h : Holds s p v ns) :
    ∀ n ∈ ns, n < s.cells.size := by
  cases h with
  | value => simp
  | list hcell hitems => exact List.forall_mem_cons.mpr ⟨Document.lt_size hcell, hitems.lt_size⟩
  | pairs hcell hitems => exact List.forall_mem_cons.mpr ⟨Document.lt_size hcell, hitems.lt_size⟩
  | map hcell hentries => exact List.forall_mem_cons.mpr ⟨Document.lt_size hcell, hentries.lt_size⟩
  | set hcell => exact List.forall_mem_singleton.mpr (Document.lt_size hcell)

theorem HoldItems.lt_size {ps : List Part} {vs : List Value} {ns : List Nat} (h : HoldItems s ps vs ns) :
    ∀ n ∈ ns, n < s.cells.size := by
  cases h with
  | nil => simp
  | cons hp hps => exact List.forall_mem_append.mpr ⟨hp.lt_size, hps.lt_size⟩

theorem HoldPairs.lt_size {ps : List (Part × Part)} {vs : List Value} {ns : List Nat}
    (h : HoldPairs s ps vs ns) : ∀ n ∈ ns, n < s.cells.size := by
  cases h with
  | nil => simp
  | cons hp hq hps =>
      exact List.forall_mem_append.mpr ⟨hp.lt_size, List.forall_mem_append.mpr ⟨hq.lt_size, hps.lt_size⟩⟩

theorem HoldEntries.lt_size {ps : List (Value × Part)} {es : List (Value × Value)} {ns : List Nat}
    (h : HoldEntries s ps es ns) : ∀ n ∈ ns, n < s.cells.size := by
  cases h with
  | nil => simp
  | cons key hp hps => exact List.forall_mem_append.mpr ⟨hp.lt_size, hps.lt_size⟩

end

variable {s' : Store}

mutual

/-- A tree stays where its own cells do not change. -/
theorem Holds.frame {p : Part} {v : Value} {ns : List Nat} (h : Holds s p v ns)
    (hsame : ∀ n ∈ ns, s'.cells[n]? = s.cells[n]?) : Holds s' p v ns := by
  cases h with
  | value hv => exact .value hv
  | list hcell hitems =>
      rw [List.forall_mem_cons] at hsame
      exact .list (hsame.1.trans hcell) (hitems.frame hsame.2)
  | pairs hcell hitems =>
      rw [List.forall_mem_cons] at hsame
      exact .pairs (hsame.1.trans hcell) (hitems.frame hsame.2)
  | map hcell hentries =>
      rw [List.forall_mem_cons] at hsame
      exact .map (hsame.1.trans hcell) (hentries.frame hsame.2)
  | set hcell =>
      rw [List.forall_mem_singleton] at hsame
      exact .set (hsame.trans hcell)

theorem HoldItems.frame {ps : List Part} {vs : List Value} {ns : List Nat} (h : HoldItems s ps vs ns)
    (hsame : ∀ n ∈ ns, s'.cells[n]? = s.cells[n]?) : HoldItems s' ps vs ns := by
  cases h with
  | nil => exact .nil
  | cons hp hps =>
      rw [List.forall_mem_append] at hsame
      exact .cons (hp.frame hsame.1) (hps.frame hsame.2)

theorem HoldPairs.frame {ps : List (Part × Part)} {vs : List Value} {ns : List Nat}
    (h : HoldPairs s ps vs ns) (hsame : ∀ n ∈ ns, s'.cells[n]? = s.cells[n]?) : HoldPairs s' ps vs ns := by
  cases h with
  | nil => exact .nil
  | cons hp hq hps =>
      simp only [List.forall_mem_append] at hsame
      exact .cons (hp.frame hsame.1) (hq.frame hsame.2.1) (hps.frame hsame.2.2)

theorem HoldEntries.frame {ps : List (Value × Part)} {es : List (Value × Value)} {ns : List Nat}
    (h : HoldEntries s ps es ns) (hsame : ∀ n ∈ ns, s'.cells[n]? = s.cells[n]?) :
    HoldEntries s' ps es ns := by
  cases h with
  | nil => exact .nil
  | cons key hp hps =>
      rw [List.forall_mem_append] at hsame
      exact .cons key (hp.frame hsame.1) (hps.frame hsame.2)

end

/-- The document is a tree that stands for the value: no cell of it stands in two places. -/
def Shared.IsTree (d : Shared) (v : Value) : Prop :=
  ∃ ns, Holds d.store d.root v ns ∧ ns.Nodup

theorem Shared.IsTree.value_eq {d : Shared} {v : Value} (h : d.IsTree v) : d.value = v := by
  obtain ⟨ns, hholds, hnodup⟩ := h
  have hsub : ns ⊆ List.range d.store.cells.size := fun n hn => List.mem_range.mpr (hholds.lt_size n hn)
  have hlength := (hnodup.subperm hsub).length_le
  rw [List.length_range] at hlength
  refine (reads_unfold hholds hnodup (Nat.le_succ_of_le hlength) _ fun n _ => ?_).1
  rw [Array.getD_eq_getD_getElem?, Array.getElem?_replicate]
  split <;> rfl

end Wireform.Document
