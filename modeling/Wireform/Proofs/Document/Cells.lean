import Wireform.Proofs.Document.Tree
import Wireform.Proofs.Value

/-!
# Changes in a tree

What stands under a key of a map in a tree of cells, and what the tree stands for when something else is put
there: a text, what a change inside the map under the key has made of it, or a new map.
-/
namespace Wireform.Document

namespace Store

variable {s : Store} {n : Nat} {parts : List (Value × Part)}

theorem map?_eq_some (h : s.cells[n]? = some (.map parts)) : s.map? n = some parts := by
  rw [map?, cell_eq h]

theorem getElem?_put_self (h : s.cells[n]? = some (.map parts)) (key : String) (p : Part) :
    (s.put n key p).cells[n]? = some (.map (Value.put (.str key) p parts)) := by
  rw [put, map?_eq_some h]
  exact Array.getElem?_setIfInBounds_self_of_lt (lt_size h)

theorem getElem?_put_of_ne {m : Nat} (hm : m ≠ n) (key : String) (p : Part) :
    (s.put n key p).cells[m]? = s.cells[m]? := by
  unfold put
  cases s.map? n with
  | none => rfl
  | some parts => exact Array.getElem?_setIfInBounds_ne hm.symm

theorem size_put (key : String) (p : Part) : (s.put n key p).cells.size = s.cells.size := by
  unfold put
  cases s.map? n with
  | none => rfl
  | some parts => exact Array.size_setIfInBounds

theorem getElem?_addMap_of_lt {m : Nat} (hm : m < s.cells.size) : s.addMap.cells[m]? = s.cells[m]? := by
  rw [addMap, Array.getElem?_push, if_neg (Nat.ne_of_lt hm)]

theorem getElem?_addMap_size : s.addMap.cells[s.cells.size]? = some (.map []) := by
  rw [addMap, Array.getElem?_push, if_pos rfl]

theorem size_put_addMap (key : String) (p : Part) :
    (s.addMap.put n key p).cells.size = s.cells.size + 1 := by
  rw [size_put, addMap, Array.size_push]

theorem find?_eq (key : String) (parts : List (Value × Part)) :
    find? key parts = Value.find? (.str key) parts := by
  induction parts with
  | nil => rfl
  | cons e parts ih =>
      obtain ⟨k, p⟩ := e
      cases k <;> simp [find?, Value.find?, Value.sameKey, Value.number?, ih]

end Store

/-- From one store to another only the given cells have changed, and the second ones are among them or new. -/
structure Changes (s s' : Store) (ns ns' : List Nat) : Prop where
  size : s.cells.size ≤ s'.cells.size
  frame : ∀ m < s.cells.size, m ∉ ns → s'.cells[m]? = s.cells[m]?
  mem : ∀ m ∈ ns', m ∈ ns ∨ s.cells.size ≤ m

/-- The tree in a cell, whose cells are the given ones, stands for the value in the other store, and nothing
besides these cells has changed. -/
def Becomes (s s' : Store) (n : Nat) (ns : List Nat) (v : Value) : Prop :=
  ∃ ns', Holds s' (.cell n) v ns' ∧ ns'.Nodup ∧ Changes s s' ns ns'

theorem Becomes.perm {s s' : Store} {n : Nat} {ms ns : List Nat} {v : Value} (hperm : ms.Perm ns)
    (h : Becomes s s' n ms v) : Becomes s s' n ns v := by
  obtain ⟨ns', hns', hnodup, hchanges⟩ := h
  refine ⟨ns', hns', hnodup, hchanges.size, fun m hm hm' => ?_, fun m hm => ?_⟩
  · exact hchanges.frame m hm fun hmem => hm' (hperm.mem_iff.mp hmem)
  · exact (hchanges.mem m hm).imp_left hperm.mem_iff.mp

/-- A cell of a tree holds a map where the tree stands for one. -/
theorem Holds.map?_isSome {s : Store} {n : Nat} {v : Value} {ns : List Nat} (h : Holds s (.cell n) v ns) :
    (s.map? n).isSome = true ↔ v = .map v.entries := by
  cases h with
  | list hcell | pairs hcell | map hcell | set hcell => simp [Store.map?, cell_eq hcell, Value.entries]

/-- A tree stands under a key, or nothing does. -/
def Found (s : Store) (key : String) (parts : List (Value × Part)) (es : List (Value × Value))
    (ls : List Nat) : Prop :=
  match Value.find? (.str key) parts with
  | some p => Holds s p (Value.getD key es) ls
  | none => Value.getD key es = .null ∧ ls = []

/-- The cells of a map's entries: those of what stands under a key, and the rest. If a tree is put there and
the rest does not change, the entries are those with the tree's value put there. -/
theorem HoldEntries.focus {s : Store} {parts : List (Value × Part)} {es : List (Value × Value)}
    {ns : List Nat} (h : HoldEntries s parts es ns) (key : String) :
    ∃ ls rest, ns.Perm (ls ++ rest) ∧ Found s key parts es ls ∧
      ∀ {s' : Store} {p' : Part} {v' : Value} {ls' : List Nat}, Holds s' p' v' ls' →
        (∀ n ∈ rest, s'.cells[n]? = s.cells[n]?) →
        ∃ ns', HoldEntries s' (Value.put (.str key) p' parts) (Value.put (.str key) v' es) ns' ∧
          ns'.Perm (ls' ++ rest) := by
  induction parts generalizing es ns with
  | nil =>
      cases h
      exact ⟨[], [], .nil, ⟨rfl, rfl⟩, fun hp _ => ⟨_, .cons (.str key) hp .nil, .refl _⟩⟩
  | cons e parts ih =>
      cases h with
      | @cons k p v ps es ms ns hp hps =>
          by_cases hk : k = .str key
          · subst hk
            have hsame : Value.sameKey (.str key) (.str key) = true := Value.sameKey_str.mpr rfl
            refine ⟨ms, ns, .refl _, ?_, fun hp' hagree => ?_⟩
            · rw [Found, Value.find?, if_pos hsame, Value.getD_cons, if_pos hsame]
              exact hp
            · rw [Value.put_cons_self, Value.put_cons_self]
              exact ⟨_, .cons (.str key) hp' (hps.frame hagree), .refl _⟩
          · have hsame : ¬ Value.sameKey k (.str key) = true := fun h => hk (Value.sameKey_str.mp h)
            obtain ⟨ls, rest, hperm, hfound, hput⟩ := ih hps
            refine ⟨ls, ms ++ rest, ?_, ?_, fun hp' hagree => ?_⟩
            · exact (hperm.append_left ms).trans (List.perm_append_comm_assoc ms ls rest)
            · rw [Found, Value.find?, if_neg hsame, Value.getD_cons, if_neg hsame]
              exact hfound
            · rw [List.forall_mem_append] at hagree
              obtain ⟨ns', hns', hperm'⟩ := hput hp' hagree.2
              rw [Value.put_cons_of_ne hk, Value.put_cons_of_ne hk]
              refine ⟨_, .cons k (hp.frame hagree.1) hns', ?_⟩
              exact (hperm'.append_left ms).trans (List.perm_append_comm_assoc ms _ rest)

/-- The map in a cell of a tree, seen from a key: what is in the cell, the cells of what stands under the key,
and the rest. -/
structure Focus (s : Store) (n : Nat) (es : List (Value × Value)) (key : String)
    (parts : List (Value × Part)) (ls rest : List Nat) : Prop where
  cell : s.cells[n]? = some (.map parts)
  nodup : (n :: (ls ++ rest)).Nodup
  below : ∀ m ∈ n :: (ls ++ rest), m < s.cells.size
  found : Found s key parts es ls
  put : ∀ {s' : Store} {p' : Part} {v' : Value} {ls' : List Nat},
    s'.cells[n]? = some (.map (Value.put (.str key) p' parts)) →
    (∀ m ∈ rest, s'.cells[m]? = s.cells[m]?) → Holds s' p' v' ls' → ls'.Nodup →
    (∀ m ∈ ls', m ∉ n :: rest) →
    ∃ ns', Holds s' (.cell n) (.map (Value.put (.str key) v' es)) ns' ∧ ns'.Nodup ∧
      ∀ m ∈ ns', m ∈ n :: rest ∨ m ∈ ls'

theorem Holds.focus {s : Store} {n : Nat} {es : List (Value × Value)} {ns : List Nat}
    (h : Holds s (.cell n) (.map es) ns) (hnodup : ns.Nodup) (key : String) :
    ∃ parts ls rest, ns.Perm (n :: (ls ++ rest)) ∧ Focus s n es key parts ls rest := by
  have hbelow := h.lt_size
  cases h with
  | @map _ parts _ ms hcell hentries =>
      obtain ⟨ls, rest, hperm, hfound, hput⟩ := hentries.focus key
      have hall := (hperm.cons n).nodup_iff.mp hnodup
      refine ⟨parts, ls, rest, hperm.cons n, hcell, hall, fun m hm => ?_, hfound, ?_⟩
      · exact hbelow m ((hperm.cons n).mem_iff.mpr hm)
      intro s' p' v' ls' hcell' hagree hp' hls' hdisjoint
      obtain ⟨ns', hentries', hperm'⟩ := hput hp' hagree
      have hrest : (n :: rest).Nodup := hall.sublist ((List.sublist_append_right ls rest).cons_cons n)
      have hall' : (n :: ns').Perm (ls' ++ n :: rest) := (hperm'.cons n).trans List.perm_middle.symm
      refine ⟨n :: ns', .map hcell' hentries', ?_, fun m hm => ?_⟩
      · rw [hall'.nodup_iff]
        exact hls'.append hrest fun m hm hm' => hdisjoint m hm hm'
      · exact (List.mem_append.mp (hall'.mem_iff.mp hm)).symm

namespace Focus

theorem mem_of_rest {n m : Nat} {ls rest : List Nat} (hm : m ∈ n :: rest) : m ∈ n :: (ls ++ rest) :=
  ((List.sublist_append_right ls rest).cons_cons n).subset hm

variable {s : Store} {n : Nat} {es : List (Value × Value)} {key : String} {parts : List (Value × Part)}
  {ls rest : List Nat} (h : Focus s n es key parts ls rest)

include h

theorem lt_size {m : Nat} (hm : m ∈ n :: rest) : m < s.cells.size :=
  h.below m (mem_of_rest hm)

theorem self_lt : n < s.cells.size :=
  h.lt_size List.mem_cons_self

theorem ne_self {m : Nat} (hm : m ∈ rest) : m ≠ n := by
  rintro rfl
  exact (List.nodup_cons.mp h.nodup).1 (List.mem_append_right ls hm)

theorem nodup_inner : ls.Nodup :=
  (List.nodup_append'.mp (List.nodup_cons.mp h.nodup).2).1

theorem not_mem_inner {m : Nat} (hm : m ∈ n :: rest) : m ∉ ls := by
  obtain ⟨hn, hall⟩ := List.nodup_cons.mp h.nodup
  rcases List.mem_cons.mp hm with rfl | hm
  · exact fun hls => hn (List.mem_append_left rest hls)
  · exact fun hls => (List.nodup_append'.mp hall).2.2 hls hm

/-- A section under the key is the cell of the map there. -/
theorem of_section?_eq_some {m : Nat} (hsection : s.section? n key = some m) :
    Value.find? (.str key) parts = some (.cell m) ∧
      Holds s (.cell m) (.map (Value.getD key es).entries) ls := by
  have hfound := h.found
  rw [Store.section?, Store.map?_eq_some h.cell, Option.bind_some, Store.find?_eq] at hsection
  unfold Found at hfound
  cases hp : Value.find? (.str key) parts with
  | none => simp [hp] at hsection
  | some p =>
      simp only [hp] at hfound hsection
      cases p with
      | value v => cases hsection
      | cell m' =>
          simp only [Option.ite_none_right_eq_some] at hsection
          obtain ⟨hmap, hm⟩ := hsection
          cases hm
          rw [← hfound.map?_isSome.mp hmap]
          exact ⟨rfl, hfound⟩

/-- Without a section no map stands under the key. -/
theorem of_section?_eq_none (hsection : s.section? n key = none) : (Value.getD key es).entries = [] := by
  have hfound := h.found
  rw [Store.section?, Store.map?_eq_some h.cell, Option.bind_some, Store.find?_eq] at hsection
  unfold Found at hfound
  cases hp : Value.find? (.str key) parts with
  | none =>
      rw [hp] at hfound
      rw [hfound.1]
      rfl
  | some p =>
      simp only [hp] at hfound hsection
      refine Value.entries_eq_nil fun hmap => ?_
      cases p with
      | value v =>
          generalize Value.getD key es = w at hfound hmap
          cases hfound with
          | value hv => exact hv _ hmap
      | cell m => simp [hfound.map?_isSome.mpr hmap] at hsection

theorem put_text (text : String) :
    Becomes s (s.put n key (.value (.str text))) n (n :: (ls ++ rest))
      (.map (Value.put (.str key) (.str text) es)) := by
  have hframe : ∀ m ∈ rest, (s.put n key (.value (.str text))).cells[m]? = s.cells[m]? := fun m hm =>
    Store.getElem?_put_of_ne (h.ne_self hm) key _
  obtain ⟨ns', hns', hnodup, hmem⟩ :=
    h.put (Store.getElem?_put_self h.cell key _) hframe (.value nofun) List.nodup_nil nofun
  refine ⟨ns', hns', hnodup, ?_, fun m _ hm => ?_, fun m hm => ?_⟩
  · exact Nat.le_of_eq (Store.size_put key _).symm
  · exact Store.getElem?_put_of_ne (List.ne_of_not_mem_cons hm) key _
  · exact .inl (mem_of_rest ((hmem m hm).resolve_right List.not_mem_nil))

/-- A change inside the map under the key. -/
theorem put_inner {m : Nat} (hfind : Value.find? (.str key) parts = some (.cell m)) {s' : Store}
    {inner : List (Value × Value)} (hinner : Becomes s s' m ls (.map inner)) :
    Becomes s s' n (n :: (ls ++ rest)) (.map (Value.put (.str key) (.map inner) es)) := by
  obtain ⟨ls', hls', hnodup, hchanges⟩ := hinner
  have hframe : ∀ m ∈ n :: rest, s'.cells[m]? = s.cells[m]? := fun m hm =>
    hchanges.frame m (h.lt_size hm) (h.not_mem_inner hm)
  rw [List.forall_mem_cons] at hframe
  have hcell : s'.cells[n]? = some (.map (Value.put (.str key) (.cell m) parts)) := by
    rw [Value.put_of_find? hfind, hframe.1, h.cell]
  have hdisjoint : ∀ m ∈ ls', m ∉ n :: rest := by
    intro m hm hm'
    rcases hchanges.mem m hm with hls | hnew
    · exact h.not_mem_inner hm' hls
    · exact absurd (h.lt_size hm') (Nat.not_lt.mpr hnew)
  obtain ⟨ns', hns', hnodup', hmem⟩ := h.put hcell hframe.2 hls' hnodup hdisjoint
  have hinside {m : Nat} (hls : m ∈ ls) : m ∈ n :: (ls ++ rest) :=
    List.mem_cons_of_mem n (List.mem_append_left rest hls)
  refine ⟨ns', hns', hnodup', hchanges.size, fun m hm hm' => ?_, fun m hm => ?_⟩
  · exact hchanges.frame m hm fun hls => hm' (hinside hls)
  · rcases hmem m hm with hm | hm
    · exact .inl (mem_of_rest hm)
    · exact (hchanges.mem m hm).imp_left hinside

theorem holds_new :
    Holds (s.addMap.put n key (.cell s.cells.size)) (.cell s.cells.size) (.map []) [s.cells.size] := by
  refine .map ?_ .nil
  rw [Store.getElem?_put_of_ne (Nat.ne_of_gt h.self_lt), Store.getElem?_addMap_size]

/-- A change inside a new map under the key. -/
theorem put_new {s' : Store} {inner : List (Value × Value)}
    (hinner : Becomes (s.addMap.put n key (.cell s.cells.size)) s' s.cells.size [s.cells.size] (.map inner)) :
    Becomes s s' n (n :: (ls ++ rest)) (.map (Value.put (.str key) (.map inner) es)) := by
  obtain ⟨ls', hls', hnodup, hchanges⟩ := hinner
  have hn := h.self_lt
  have hsize : (s.addMap.put n key (.cell s.cells.size)).cells.size = s.cells.size + 1 :=
    Store.size_put_addMap key _
  have hold : ∀ m < s.cells.size,
      s'.cells[m]? = (s.addMap.put n key (.cell s.cells.size)).cells[m]? := by
    intro m hm
    refine hchanges.frame m (by omega) ?_
    rw [List.mem_singleton]
    exact Nat.ne_of_lt hm
  have hframe : ∀ m < s.cells.size, m ≠ n → s'.cells[m]? = s.cells[m]? := by
    intro m hm hmn
    rw [hold m hm, Store.getElem?_put_of_ne hmn, Store.getElem?_addMap_of_lt hm]
  have hcell : s'.cells[n]? = some (.map (Value.put (.str key) (.cell s.cells.size) parts)) := by
    rw [hold n hn, Store.getElem?_put_self ((Store.getElem?_addMap_of_lt hn).trans h.cell)]
  have hnew : ∀ m ∈ ls', s.cells.size ≤ m := by
    intro m hm
    rcases hchanges.mem m hm with hm | hm
    · exact Nat.le_of_eq (List.mem_singleton.mp hm).symm
    · omega
  have hrest : ∀ m ∈ rest, s'.cells[m]? = s.cells[m]? := fun m hm =>
    hframe m (h.lt_size (List.mem_cons_of_mem n hm)) (h.ne_self hm)
  have hdisjoint : ∀ m ∈ ls', m ∉ n :: rest := fun m hm hm' =>
    absurd (h.lt_size hm') (Nat.not_lt.mpr (hnew m hm))
  obtain ⟨ns', hns', hnodup', hmem⟩ := h.put hcell hrest hls' hnodup hdisjoint
  have hgrown := hchanges.size
  refine ⟨ns', hns', hnodup', by omega, fun m hm hm' => ?_, fun m hm => ?_⟩
  · exact hframe m hm (List.ne_of_not_mem_cons hm')
  · rcases hmem m hm with hm | hm
    · exact .inl (mem_of_rest hm)
    · exact .inr (hnew m hm)

end Focus

end Wireform.Document
