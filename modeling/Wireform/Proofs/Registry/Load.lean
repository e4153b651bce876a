import Wireform.Registry.Basic
import Wireform.Proofs.Registry.Resolve

/-!
# Loading documents

A document is loaded exactly if its definitions can be: no name is that of a scalar, every definition is well
formed, and none leads back to itself. What is loaded is what the names denote.
-/
namespace Wireform

namespace Document

/-- The entry of a map with its key as a text, whether or not it is one. -/
def named (e : Value × Value) : String × Value :=
  ((text e.1).toOption.getD "", e.2)

theorem text_eq_ok {e : Value × Value} (h : ∃ name, text e.1 = .ok name) :
    text e.1 = .ok (named e).1 := by
  obtain ⟨name, hname⟩ := h
  rw [hname, named, hname]
  rfl

theorem keyComplaint?_eq_none {place : String} {e : Value × Value} :
    keyComplaint? place e = none ↔ ∃ name, text e.1 = .ok name := by
  unfold keyComplaint?
  cases text e.1 <;> simp

theorem filterMap_named? {entries : List (Value × Value)}
    (h : ∀ e ∈ entries, ∃ name, text e.1 = .ok name) :
    entries.filterMap named? = entries.map named := by
  rw [← List.filterMap_eq_map]
  refine List.filterMap_congr fun e he => ?_
  rw [named?, text_eq_ok (h e he)]
  rfl

/-- Entries whose keys are all texts are things under these texts, the last of those with the same name. -/
theorem namedEntries_eq_ok {place : String} {entries : List (Value × Value)}
    {things : List (String × Value)} :
    namedEntries place entries = .ok things ↔
      (∀ e ∈ entries, ∃ name, text e.1 = .ok name) ∧ things = Named.distinct (entries.map named) := by
  have htexts : entries.filterMap (keyComplaint? place) = [] ↔
      ∀ e ∈ entries, ∃ name, text e.1 = .ok name := by
    rw [List.filterMap_eq_nil_iff]
    exact forall₂_congr fun _ _ => keyComplaint?_eq_none
  unfold namedEntries
  split
  · rename_i hnone
    have hall := htexts.mp hnone
    rw [Except.ok.injEq, filterMap_named? hall]
    constructor
    · intro h
      exact ⟨hall, h.symm⟩
    · rintro ⟨-, rfl⟩
      rfl
  · rename_i hsome
    constructor
    · rintro ⟨⟩
    · rintro ⟨hall, -⟩
      exact absurd (htexts.mpr hall) hsome

end Document

namespace Registry

theorem readDefinitions_eq_ok {document : Value} {definitions : List (String × Value)} :
    readDefinitions document = .ok definitions ↔
      ∃ entries, document = .map entries ∧ Document.badKeys entries = [] ∧
        versionComplaints entries = [] ∧ definitionsOf entries = .ok definitions := by
  cases document with
  | map entries =>
      simp only [readDefinitions, Value.map.injEq, exists_eq_left']
      cases hkeys : Document.badKeys entries with
      | cons key keys => simp
      | nil =>
          cases hversion : versionComplaints entries with
          | cons complaint complaints => cases definitionsOf entries <;> simp
          | nil => cases definitionsOf entries <;> simp
  | _ => simp [readDefinitions]

theorem definitionsOf_eq_ok {entries : List (Value × Value)} {definitions : List (String × Value)} :
    definitionsOf entries = .ok definitions ↔
      ∃ defs, Value.get? "schemas" entries = some (.map defs) ∧
        Document.namedEntries "schemas" defs = .ok definitions := by
  unfold definitionsOf
  split <;> simp_all

/-- Definitions that are read have different names. -/
theorem nodup_of_readDefinitions {document : Value} {definitions : List (String × Value)}
    (h : readDefinitions document = .ok definitions) : (definitions.map Prod.fst).Nodup := by
  obtain ⟨_, -, -, -, hdefinitions⟩ := readDefinitions_eq_ok.mp h
  obtain ⟨_, -, hnamed⟩ := definitionsOf_eq_ok.mp hdefinitions
  rw [(Document.namedEntries_eq_ok.mp hnamed).2]
  exact Named.nodup_distinct _

/-- Definitions that are read stand in the document. -/
theorem exists_mem_of_readDefinitions {document : Value} {definitions : List (String × Value)}
    (h : readDefinitions document = .ok definitions) :
    ∃ entries defs, document = .map entries ∧ (.str "schemas", .map defs) ∈ entries ∧
      ∀ d ∈ definitions, ∃ e ∈ defs, e.2 = d.2 := by
  obtain ⟨entries, rfl, -, -, hdefinitions⟩ := readDefinitions_eq_ok.mp h
  obtain ⟨defs, hget, hnamed⟩ := definitionsOf_eq_ok.mp hdefinitions
  refine ⟨entries, defs, rfl, Value.mem_of_get? hget, fun d hd => ?_⟩
  rw [(Document.namedEntries_eq_ok.mp hnamed).2] at hd
  obtain ⟨e, he, rfl⟩ := List.mem_map.mp (Named.mem_of_mem_distinct hd)
  exact ⟨e, he, rfl⟩

theorem shadowing_eq_nil {names : List String} :
    (shadowing names).isEmpty = true ↔ ∀ name ∈ names, Scalar.ofName? name = none := by
  rw [List.isEmpty_iff, ← List.length_eq_zero_iff, shadowing, List.length_mergeSort,
    List.length_eq_zero_iff, List.filter_eq_nil_iff]
  simp

theorem yields_loadSchemas {document : Value} {p q : Progress} {schemas : List (String × Schema)} :
    Yields (loadSchemas document) p schemas q ↔ ∃ definitions,
      readDefinitions document = .ok definitions ∧
      (∀ e ∈ definitions, Scalar.ofName? e.1 = none) ∧
      ∃ r, Yields (resolveAll definitions (definitions.map Prod.fst)) p schemas r ∧
        { r with log := r.log ++ [loadedRecord (definitions.map Prod.fst)] } = q := by
  unfold loadSchemas
  cases readDefinitions document with
  | error fault => simp
  | ok definitions =>
      have hscalars : (shadowing (definitions.map Prod.fst)).isEmpty = true ↔
          ∀ e ∈ definitions, Scalar.ofName? e.1 = none :=
        shadowing_eq_nil.trans List.forall_mem_map
      simp only [Except.ok.injEq, exists_eq_left', ← hscalars]
      by_cases hshadowing : (shadowing (definitions.map Prod.fst)).isEmpty = true
      · simp only [hshadowing, if_true, yields_bind, yields_report, yields_pure, true_and]
        constructor
        · rintro ⟨_, r, hr, _, _, rfl, rfl, rfl⟩
          exact ⟨r, hr, rfl⟩
        · rintro ⟨r, hr, rfl⟩
          exact ⟨schemas, r, hr, (), _, rfl, rfl, rfl⟩
      · simp [hshadowing]

theorem exists_of_isOk {ε α : Type} {x : Except ε α} (h : x.isOk = true) : ∃ a, x = .ok a := by
  cases x with
  | ok a => exact ⟨a, rfl⟩
  | error e => cases h

/-- A registry is what loading yields from nothing. -/
theorem ofDocument_eq_ok {maxDepth : Option Int} {document : Value} {r : Registry} :
    (ofDocument maxDepth document).1 = .ok r ↔
      ∃ schemas q, Yields (loadSchemas document) ⟨[], []⟩ schemas q ∧ r = ⟨schemas, maxDepth⟩ := by
  unfold ofDocument Yields
  cases (loadSchemas document).run.run ⟨[], []⟩ with
  | mk result progress =>
      cases result with
      | error fault =>
          constructor
          · rintro ⟨⟩
          · rintro ⟨_, _, ⟨⟩, -⟩
      | ok schemas =>
          constructor
          · rintro ⟨⟩
            exact ⟨schemas, progress, rfl, rfl⟩
          · rintro ⟨_, _, ⟨⟩, rfl⟩
            rfl

theorem sound_nil {definitions : List (String × Value)} :
    Progress.Sound definitions ⟨[], []⟩ := by
  simp [Progress.Sound]

/-- A registry that was loaded has the schemas that the names of its document denote. -/
theorem of_ofDocument {maxDepth : Option Int} {document : Value} {r : Registry}
    (h : (ofDocument maxDepth document).1 = .ok r) : ∃ definitions,
      readDefinitions document = .ok definitions ∧ Loadable definitions ∧ r.maxDepth = maxDepth ∧
      r.names = definitions.map Prod.fst ∧ ∀ e ∈ r.schemas, Denotes definitions (.str e.1) e.2 := by
  obtain ⟨schemas, q, hyields, rfl⟩ := ofDocument_eq_ok.mp h
  obtain ⟨definitions, hread, hscalars, _, hresolve, -⟩ := yields_loadSchemas.mp hyields
  obtain ⟨hnames, hall⟩ := sound_resolveAll (List.forall_mem_map.mpr hscalars) sound_nil hresolve
  refine ⟨definitions, hread, ?_, rfl, hnames, hall⟩
  refine .of_denotes hscalars (fun name hname => ?_) (nodup_of_readDefinitions hread)
  rw [← hnames] at hname
  obtain ⟨e, he, rfl⟩ := List.mem_map.mp hname
  exact ⟨e.2, hall e he⟩

/-- Definitions that can be loaded are loaded. -/
theorem exists_ofDocument (maxDepth : Option Int) {document : Value}
    {definitions : List (String × Value)} (hread : readDefinitions document = .ok definitions)
    (hload : Loadable definitions) : ∃ r, (ofDocument maxDepth document).1 = .ok r := by
  obtain ⟨schemas, q, hresolve⟩ := total_resolveAll hload (List.Subset.refl _) sound_nil
  exact ⟨_, ofDocument_eq_ok.mpr ⟨schemas, _, yields_loadSchemas.mpr
    ⟨definitions, hread, hload.scalars, q, hresolve, rfl⟩, rfl⟩⟩

/-- The document of some named definitions. -/
def document (definitions : List (String × Value)) : Value :=
  .map [(.str "schemas", .map (definitions.map fun t => (.str t.1, t.2)))]

theorem readDefinitions_document {definitions : List (String × Value)}
    (hnames : (definitions.map Prod.fst).Nodup) :
    readDefinitions (document definitions) = .ok definitions := by
  refine readDefinitions_eq_ok.mpr ⟨_, rfl, rfl, rfl, definitionsOf_eq_ok.mpr ⟨_, rfl, ?_⟩⟩
  refine Document.namedEntries_eq_ok.mpr ⟨?_, ?_⟩
  · rw [List.forall_mem_map]
    exact fun t _ => ⟨t.1, rfl⟩
  rw [List.map_map]
  exact ((congrArg Named.distinct (List.map_id definitions)).trans (Named.distinct_of_nodup hnames)).symm

/-- A document of definitions under different names is loaded if and only if no name is that of a scalar,
every definition is well formed, and none leads back to itself. -/
theorem ofDocument_ok_iff {definitions : List (String × Value)}
    (hnames : (definitions.map Prod.fst).Nodup) (maxDepth : Option Int) :
    (∃ r, (ofDocument maxDepth (document definitions)).1 = .ok r) ↔ Loadable definitions := by
  have hread := readDefinitions_document hnames
  constructor
  · rintro ⟨r, hr⟩
    obtain ⟨_, hread', hload, -⟩ := of_ofDocument hr
    rw [hread] at hread'
    cases hread'
    exact hload
  · exact exists_ofDocument maxDepth hread

/-- Two names that share a third one make no cycle. -/
theorem loadable_shared :
    Loadable
      [("line", combined .tuple (.list [.str "point", .str "point"])),
        ("mark", combined .object (.map [(.str "at", .str "point"), (.str "on", .str "line")])),
        ("point", combined .tuple (.list [.str "float", .str "float"]))] :=
  (ofDocument_ok_iff (by decide) none).mp (exists_of_isOk (by decide +kernel))

end Registry
end Wireform
