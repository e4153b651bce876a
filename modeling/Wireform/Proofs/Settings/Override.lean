import Wireform.Proofs.Document.Cells
import Wireform.Proofs.Settings.Name
import Wireform.Proofs.Settings.Paths

/-!
# Overriding a document that is a tree

Applying the variables of an environment to a document that is a tree sets their texts at the ends of their
paths, in the maps that the document stands for. So what is known of paths holds of overrides.
-/
namespace Wireform.Settings

open Document (Store Shared Holds Becomes)

/-- Setting a text deep in a tree of cells is setting it in the maps that the tree stands for. -/
theorem becomes_setDeep (text : String) {path : List String} (hpath : path ≠ []) {s : Store} {n : Nat}
    {entries : List (Value × Value)} {ns : List Nat} (h : Holds s (.cell n) (.map entries) ns)
    (hnodup : ns.Nodup) :
    Becomes s (setDeep text path n s) n ns (.map (setPath text path entries)) := by
  induction path generalizing s n entries ns with
  | nil => exact absurd rfl hpath
  | cons key path ih =>
      obtain ⟨parts, ls, rest, hperm, hfocus⟩ := h.focus hnodup key
      refine Becomes.perm hperm.symm ?_
      cases path with
      | nil => exact hfocus.put_text text
      | cons next path =>
          rw [setPath]
          cases hsection : s.section? n key with
          | some m =>
              obtain ⟨hfind, hinner⟩ := hfocus.of_section?_eq_some hsection
              simp only [setDeep, hsection]
              exact hfocus.put_inner hfind (ih (List.cons_ne_nil _ _) hinner hfocus.nodup_inner)
          | none =>
              simp only [setDeep, hsection]
              rw [hfocus.of_section?_eq_none hsection]
              exact hfocus.put_new (ih (List.cons_ne_nil _ _) hfocus.holds_new (List.nodup_singleton _))

/-! ### The variables of an environment -/

/-- The paths that the variables name, with their texts. -/
def settings (word : String) (environment : Environment) : List Setting :=
  environment.filterMap fun item => (overridePath? word item.1).map fun path => (path, item.2)

theorem mem_settings {word : String} {environment : Environment} {o : Setting} :
    o ∈ settings word environment ↔
      ∃ name, (name, o.2) ∈ environment ∧ overridePath? word name = some o.1 := by
  obtain ⟨path, text⟩ := o
  simp only [settings, List.mem_filterMap, Option.map_eq_some_iff, Prod.mk.injEq, Prod.exists]
  constructor
  · rintro ⟨name, text', hmem, path', hpath, rfl, rfl⟩
    exact ⟨name, hmem, hpath⟩
  · rintro ⟨name, hmem, hpath⟩
    exact ⟨name, text, hmem, path, hpath, rfl, rfl⟩

/-- Applying the variables is setting their texts at the ends of their paths, one after the other. -/
theorem applyOverrides_eq {word : String} (hword : word ≠ "") (environment : Environment) (n : Nat)
    (s : Store) :
    applyOverrides word environment n s =
      (settings word environment).foldl (fun s o => setDeep o.2 o.1 n s) s := by
  rw [applyOverrides, if_neg hword, settings, List.foldl_filterMap]
  congr
  funext s item
  cases overridePath? word item.1 <;> rfl

theorem holds_foldl_setDeep {settings : List Setting} (hne : ∀ o ∈ settings, o.1 ≠ []) {s : Store} {n : Nat}
    {entries : List (Value × Value)} {ns : List Nat} (h : Holds s (.cell n) (.map entries) ns)
    (hnodup : ns.Nodup) :
    ∃ ns', Holds (settings.foldl (fun s o => setDeep o.2 o.1 n s) s) (.cell n)
      (.map (setPaths settings entries)) ns' ∧ ns'.Nodup := by
  induction settings generalizing s entries ns with
  | nil => exact ⟨ns, h, hnodup⟩
  | cons o settings ih =>
      rw [List.forall_mem_cons] at hne
      obtain ⟨ns', hns', hnodup', -⟩ := becomes_setDeep o.2 hne.1 h hnodup
      exact ih hne.2 hns' hnodup'

theorem ne_nil_of_mem_settings {word : String} {environment : Environment} :
    ∀ o ∈ settings word environment, o.1 ≠ [] := by
  intro o ho
  obtain ⟨name, -, hpath⟩ := mem_settings.mp ho
  exact ne_nil_of_overridePath? hpath

/-- A tree stays a tree, and its value is the one in which the texts are set at the ends of the paths. -/
theorem isTree_override {word : String} (hword : word ≠ "") {d : Shared} {entries : List (Value × Value)}
    (h : d.IsTree (.map entries)) (environment : Environment) :
    (override word environment d).IsTree (.map (setPaths (settings word environment) entries)) := by
  obtain ⟨ns, hholds, hnodup⟩ := h
  obtain ⟨s, root⟩ := d
  cases root with
  | value v =>
      cases hholds with
      | value hv => exact absurd rfl (hv entries)
  | cell n =>
      have hne : ∀ o ∈ settings word environment, o.1 ≠ [] := ne_nil_of_mem_settings
      have hfold := holds_foldl_setDeep hne hholds hnodup
      rw [← applyOverrides_eq hword] at hfold
      exact hfold

/-- Paths of different variables are not in each other's way. -/
def PathsApart (word : String) (environment : Environment) : Prop :=
  environment.Pairwise fun a b =>
    ∀ p q, overridePath? word a.1 = some p → overridePath? word b.1 = some q → Apart p q

theorem PathsApart.settings {word : String} {environment : Environment} (h : PathsApart word environment) :
    (settings word environment).Pairwise fun o o' => Apart o.1 o'.1 := by
  refine List.Pairwise.filterMap _ ?_ h
  intro a b hab o ho o' ho'
  obtain ⟨p, hp, rfl⟩ := Option.map_eq_some_iff.mp ho
  obtain ⟨q, hq, rfl⟩ := Option.map_eq_some_iff.mp ho'
  exact hab p q hp hq

/-- Variables whose names do not begin with the word and two underscores change nothing. -/
theorem override_filter (word : String) (environment : Environment) (d : Shared) :
    override word (environment.filter fun item => (word.toList ++ ['_', '_']).isPrefixOf item.1.toList) d =
      override word environment d := by
  have hother : ∀ item : String × String,
      ¬ (word.toList ++ ['_', '_']).isPrefixOf item.1.toList = true → overridePath? word item.1 = none := by
    intro item h
    rw [overridePath?, if_neg h]
  unfold override applyOverrides
  cases d.root with
  | value v => rfl
  | cell n =>
      simp only
      rw [List.foldl_filter]
      congr
      funext s item
      split
      · rfl
      · rw [hother item ‹_›]

/-- Setting, looking up, and the order of variables. A variable names the path of the parts of its name, in
small letters. If the paths of an environment are not in each other's way, then after the override of a
document that is a tree every path leads to its text, through maps; keys that are in the way of no path lead
where they led before; variables that name no path do nothing; and for another order of the variables the
result is the same but for the order of entries. -/
theorem override_laws {word : String} (hword : word ≠ "") {d : Shared} {entries : List (Value × Value)}
    (htree : d.IsTree (.map entries)) {environment : Environment} (hapart : PathsApart word environment) :
    (∀ name path, overridePath? word name = some path ↔ ∃ parts : List String,
      Cut (parts.map String.toList) ∧ name = word ++ "__" ++ "__".intercalate parts ∧
        path = parts.map Text.lowerCase) ∧
    (∀ name text path, (name, text) ∈ environment → overridePath? word name = some path →
      (override word environment d).value.lookup? (path.map .str) = some (.str text) ∧
        ∀ start rest, path = start ++ rest → rest ≠ [] →
          ∃ inner, (override word environment d).value.lookup? (start.map .str) = some (.map inner)) ∧
    (∀ keys : List Value,
      (∀ name text path, (name, text) ∈ environment → overridePath? word name = some path →
        Apart (path.map .str) keys) →
      (override word environment d).value.lookup? keys = d.value.lookup? keys) ∧
    override word (environment.filter fun item => (word.toList ++ ['_', '_']).isPrefixOf item.1.toList) d =
      override word environment d ∧
    ∀ other : Environment, environment.Perm other →
      Value.Same (override word environment d).value (override word other d).value := by
  have hvalue (environment : Environment) :
      (override word environment d).value = .map (setPaths (settings word environment) entries) :=
    (isTree_override hword htree environment).value_eq
  refine ⟨fun _ _ => overridePath?_eq_some, ?_, ?_, override_filter word environment d, ?_⟩
  · intro name text path hmem hpath
    have hsetting : (path, text) ∈ settings word environment := mem_settings.mpr ⟨name, hmem, hpath⟩
    have hfound := lookup?_setPaths_self hapart.settings ne_nil_of_mem_settings entries _ hsetting
    rw [← hvalue] at hfound
    refine ⟨hfound, fun start rest hsplit hrest => ?_⟩
    rw [hsplit, List.map_append] at hfound
    exact Value.exists_map_of_lookup? (by simpa using hrest) hfound
  · intro keys hkeys
    rw [hvalue, htree.value_eq]
    refine lookup?_setPaths_of_apart (fun o ho => ?_) entries
    obtain ⟨name, hmem, hpath⟩ := mem_settings.mp ho
    exact hkeys name o.2 o.1 hmem hpath
  · intro other hperm
    rw [hvalue, hvalue]
    exact same_setPaths_perm (hperm.filterMap _) hapart.settings entries

/-- A map with a number and a map in it. -/
def nested : Shared :=
  ⟨⟨#[.map [(.str "a", .value (.int 5)), (.str "x", .cell 1)], .map [(.str "y", .value (.int 6))]]⟩, .cell 0⟩

/-- Two variables whose paths branch where the number stands, and one that has another word. -/
def branching : Environment := [("P__A__B", "1"), ("Q", "2"), ("P__A__C", "3")]

theorem override_laws_nested :
    ((override "P" branching nested).value.lookup? [.str "a", .str "b"] = some (.str "1") ∧
      (override "P" branching nested).value.lookup? [.str "a", .str "c"] = some (.str "3")) ∧
    (override "P" branching nested).value.lookup? [.str "x", .str "y"] =
      nested.value.lookup? [.str "x", .str "y"] ∧
    Value.Same (override "P" branching nested).value (override "P" branching.reverse nested).value := by
  have htree : nested.IsTree (.map [(.str "a", .int 5), (.str "x", .map [(.str "y", .int 6)])]) := by
    have hnumber (n : Int) : Holds nested.store (.value (.int n)) (.int n) [] := .value nofun
    have hinner : Holds nested.store (.cell 1) (.map [(.str "y", .int 6)]) [1] :=
      .map rfl (.cons _ (hnumber 6) .nil)
    exact ⟨[0, 1], .map rfl (.cons _ (hnumber 5) (.cons _ hinner .nil)), by decide⟩
  have hb : overridePath? "P" "P__A__B" = some ["a", "b"] := by decide +kernel
  have hq : overridePath? "P" "Q" = none := by decide +kernel
  have hc : overridePath? "P" "P__A__C" = some ["a", "c"] := by decide +kernel
  have hapart : PathsApart "P" branching := by
    simp [PathsApart, branching, hb, hq, hc, Apart]
  obtain ⟨-, hself, hframe, -, horder⟩ := override_laws (by decide) htree hapart
  refine ⟨⟨?_, ?_⟩, ?_, horder _ (List.reverse_perm branching).symm⟩
  · exact (hself "P__A__B" "1" _ (by simp [branching]) hb).1
  · exact (hself "P__A__C" "3" _ (by simp [branching]) hc).1
  · refine hframe _ fun name text path hmem hpath => ?_
    simp only [branching, List.mem_cons, Prod.mk.injEq, List.not_mem_nil, or_false] at hmem
    rcases hmem with ⟨rfl, rfl⟩ | ⟨rfl, rfl⟩ | ⟨rfl, rfl⟩
    · cases hb.symm.trans hpath
      simp [Apart]
    · cases hq.symm.trans hpath
    · cases hc.symm.trans hpath
      simp [Apart]

end Wireform.Settings
