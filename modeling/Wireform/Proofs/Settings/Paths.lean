import Wireform.Proofs.Nested
import Mathlib.Data.List.Basic

/-!
# Texts at the ends of paths

Setting a text at the end of a path of keys, as a function of nested maps. It is found there, every path that
is not in the way leads where it led before, and paths that are not in each other's way can be set in any
order.
-/
namespace Wireform.Settings

open Value

/-- Sets a text at the end of a path of keys. What is missing on the way, or is no map, becomes a map. -/
def setPath (text : String) : List String → List (Value × Value) → List (Value × Value)
  | [], entries => entries
  | [key], entries => put (.str key) (.str text) entries
  | key :: next :: path, entries =>
    put (.str key) (.map (setPath text (next :: path) (getD key entries).entries)) entries

/-- What the first key of a path gets. -/
def placed (text : String) (path : List String) (v : Value) : Value :=
  if path = [] then .str text else .map (setPath text path v.entries)

theorem setPath_cons (text key : String) (path : List String) (entries : List (Value × Value)) :
    setPath text (key :: path) entries = put (.str key) (placed text path (getD key entries)) entries := by
  cases path with
  | nil => rfl
  | cons next path => simp [setPath, placed]

theorem lookup?_setPath_self (text : String) {path : List String} (hpath : path ≠ [])
    (entries : List (Value × Value)) :
    (Value.map (setPath text path entries)).lookup? (path.map .str) = some (.str text) := by
  induction path generalizing entries with
  | nil => exact absurd rfl hpath
  | cons key path ih =>
      rw [setPath_cons, List.map_cons, Value.lookup?]
      simp only [Value.entries, find?_put_self, Option.bind_some]
      by_cases hrest : path = []
      · subst hrest
        rfl
      · rw [placed, if_neg hrest]
        exact ih hrest _

/-- Neither of two paths begins with the other. -/
def Apart {α : Type} (p q : List α) : Prop :=
  ¬ p <+: q ∧ ¬ q <+: p

theorem apart_cons {α : Type} {a b : α} {p q : List α} :
    Apart (a :: p) (b :: q) ↔ a ≠ b ∨ Apart p q := by
  simp only [Apart, List.cons_prefix_cons]
  by_cases h : a = b
  · simp [h]
  · simp [h, Ne.symm h]

theorem Apart.symm {α : Type} {p q : List α} (h : Apart p q) : Apart q p :=
  ⟨h.2, h.1⟩

theorem Apart.ne_nil {α : Type} {p q : List α} (h : Apart p q) : p ≠ [] := by
  rintro rfl
  exact h.1 List.nil_prefix

theorem lookup?_setPath_of_apart (text : String) {path : List String} {keys : List Value}
    (h : Apart (path.map .str) keys) (entries : List (Value × Value)) :
    (Value.map (setPath text path entries)).lookup? keys = (Value.map entries).lookup? keys := by
  induction path generalizing entries keys with
  | nil => exact absurd rfl h.ne_nil
  | cons key path ih =>
      obtain ⟨k, keys, rfl⟩ := List.exists_cons_of_ne_nil h.symm.ne_nil
      rw [setPath_cons, Value.lookup?, Value.lookup?]
      simp only [Value.entries]
      by_cases hk : k = .str key
      · subst hk
        have hrest : Apart (path.map .str) keys := (apart_cons.mp h).resolve_left (by simp)
        have hne : path ≠ [] := fun hnil => hrest.ne_nil (by rw [hnil, List.map_nil])
        rw [find?_put_self, Option.bind_some, placed, if_neg hne, ih hrest, find?_str, Value.getD]
        obtain ⟨k', keys', rfl⟩ := List.exists_cons_of_ne_nil hrest.symm.ne_nil
        cases hget : get? key entries with
        | none => rfl
        | some v => cases v <;> rfl
      · rw [find?_put_of_ne hk]

theorem same_setPath {v w : Value} (h : Same v w) (text : String) (path : List String) :
    Same (.map (setPath text path v.entries)) (.map (setPath text path w.entries)) := by
  induction path generalizing v w with
  | nil => exact h.map_entries
  | cons key path ih =>
      rw [setPath_cons, setPath_cons]
      have hplaced : Same (placed text path (getD key v.entries)) (placed text path (getD key w.entries)) := by
        unfold placed
        split
        · exact .refl _
        · exact ih (h.getD key)
      exact (hplaced.put_value key v.entries).trans (h.put key _)

theorem setPath_comm {p q : List String} (h : Apart p q) (t u : String) (entries : List (Value × Value)) :
    Same (.map (setPath u q (setPath t p entries))) (.map (setPath t p (setPath u q entries))) := by
  induction p generalizing q entries with
  | nil => exact absurd rfl h.ne_nil
  | cons key p ih =>
      obtain ⟨key', q, rfl⟩ := List.exists_cons_of_ne_nil h.symm.ne_nil
      simp only [setPath_cons]
      by_cases hk : key = key'
      · subst hk
        have hrest : Apart p q := (apart_cons.mp h).resolve_left (by simp)
        simp only [getD_put_self, put_put, placed, if_neg hrest.ne_nil, if_neg hrest.symm.ne_nil,
          Value.entries]
        exact (ih hrest _).put_value key entries
      · rw [getD_put_of_ne hk, getD_put_of_ne (Ne.symm hk)]
        exact .put_comm hk _ _ entries

/-! ### Several paths -/

/-- A path and the text for its end. -/
abbrev Setting := List String × String

def setPaths (settings : List Setting) (entries : List (Value × Value)) : List (Value × Value) :=
  settings.foldl (fun entries o => setPath o.2 o.1 entries) entries

theorem setPaths_cons (o : Setting) (settings : List Setting) (entries : List (Value × Value)) :
    setPaths (o :: settings) entries = setPaths settings (setPath o.2 o.1 entries) := rfl

theorem lookup?_setPaths_of_apart {settings : List Setting} {keys : List Value}
    (h : ∀ o ∈ settings, Apart (o.1.map .str) keys) (entries : List (Value × Value)) :
    (Value.map (setPaths settings entries)).lookup? keys = (Value.map entries).lookup? keys := by
  induction settings generalizing entries with
  | nil => rfl
  | cons o settings ih =>
      rw [List.forall_mem_cons] at h
      rw [setPaths_cons, ih h.2, lookup?_setPath_of_apart o.2 h.1]

theorem Apart.map_str {p q : List String} (h : Apart p q) :
    Apart (p.map Value.str) (q.map Value.str) := by
  have hbegins {p q : List String} (h : p.map Value.str <+: q.map Value.str) : p <+: q := by
    obtain ⟨q', hq', hp⟩ := List.prefix_map_iff.mp h
    rw [List.map_injective_iff.mpr (fun _ _ => Value.str.inj) hp]
    exact hq'
  exact ⟨fun hpq => h.1 (hbegins hpq), fun hqp => h.2 (hbegins hqp)⟩

/-- Paths that are not in each other's way all get their texts. -/
theorem lookup?_setPaths_self {settings : List Setting} (hapart : settings.Pairwise fun o o' => Apart o.1 o'.1)
    (hne : ∀ o ∈ settings, o.1 ≠ []) (entries : List (Value × Value)) :
    ∀ o ∈ settings, (Value.map (setPaths settings entries)).lookup? (o.1.map .str) = some (.str o.2) := by
  induction settings generalizing entries with
  | nil => simp
  | cons o settings ih =>
      rw [List.pairwise_cons] at hapart
      rw [List.forall_mem_cons] at hne ⊢
      rw [setPaths_cons]
      refine ⟨?_, ih hapart.2 hne.2 _⟩
      rw [lookup?_setPaths_of_apart fun o' ho' => (hapart.1 o' ho').symm.map_str]
      exact lookup?_setPath_self o.2 hne.1 entries

theorem same_setPaths {v w : Value} (h : Same v w) (settings : List Setting) :
    Same (.map (setPaths settings v.entries)) (.map (setPaths settings w.entries)) := by
  induction settings generalizing v w with
  | nil => exact h.map_entries
  | cons o settings ih => exact ih (same_setPath h o.2 o.1)

/-- And their order shows only in the order of entries. -/
theorem same_setPaths_perm {settings others : List Setting} (hperm : settings.Perm others)
    (hapart : settings.Pairwise fun o o' => Apart o.1 o'.1) (entries : List (Value × Value)) :
    Same (.map (setPaths settings entries)) (.map (setPaths others entries)) := by
  induction hperm generalizing entries with
  | nil => exact .refl _
  | cons o _ ih => exact ih (List.pairwise_cons.mp hapart).2 _
  | swap o o' settings =>
      have hfirst : Apart o'.1 o.1 := (List.pairwise_cons.mp hapart).1 o List.mem_cons_self
      exact same_setPaths (setPath_comm hfirst o'.2 o.2 entries) settings
  | trans hperm _ ih ih' =>
      have hother := (hperm.pairwise_iff fun h => h.symm).mp hapart
      exact (ih hapart entries).trans (ih' hother entries)

end Wireform.Settings
