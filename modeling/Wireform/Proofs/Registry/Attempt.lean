import Wireform.Registry.Attempt
import Wireform.Proofs.Registry.Load

/-!
# What loading raises

Loading by operations that raise is loading as it is defined, and what it raises is the registry's own error,
except where a number is too long to be shown. Every error of a combinator passes the handler of the definition
that applies it; every look-up stands behind a test; and there are always steps left, because the names in
progress have definitions and are all different.
-/
namespace Wireform.Registry

/-- Only definitions have been resolved. -/
def Progress.Known (definitions : List (String × Value)) (p : Progress) : Prop :=
  ∀ e ∈ p.built, e.1 ∈ definitions.map Prod.fst

/-- A fault of loading as what is raised. -/
def Raised.ofLoadFault : LoadFault → Raised
  | .numberTooLong => .operation .value
  | fault => .own fault

/-- A combinator gives what it is asked for, or finds something wrong. -/
inductive Answers {α : Type} : Except BuildFault α → Prop
  | ok (a : α) : Answers (.ok a)
  | definition (fault : DefinitionFault) : Answers (.error (.definition fault))

/-- What has items can be gone through. -/
theorem answers_requireMembers {v : Value} {items : List Value} (htext : ∀ s, v ≠ .str s)
    (hitems : v.iterate? = some items) : Answers (Schema.requireMembers (.value v)) := by
  rw [requireMembers_of_iterate? htext hitems]
  cases Schema.texts? items with
  | some members => exact .ok members
  | none => exact .definition _

theorem answers_variantOf (discriminant : String) (branches : List Schema.Branch) :
    Answers (Schema.variantOf discriminant branches) := by
  unfold Schema.variantOf
  split
  · exact .definition _
  · exact .ok _

theorem answers_requireBranch (tag : String) (s : Schema) :
    Answers (Schema.requireBranch tag (.schema s)) := by
  cases s with
  | object fields => exact .ok (tag, fields)
  | _ => exact .definition _

namespace Attempting

variable {α β : Type} {definitions : List (String × Value)}

/-- From a progress where only definitions have been resolved, both runs end alike, and what is raised is the
fault. -/
def Agrees (definitions : List (String × Value)) (y : Attempting α) (x : Resolve α) : Prop :=
  ∀ p : Progress, p.Known definitions →
    y.run.run p = ((x.run.run p).1.mapError Raised.ofLoadFault, (x.run.run p).2) ∧
      (x.run.run p).2.Known definitions

/-- References agree. -/
def AgreesLookup (definitions : List (String × Value)) (r : Lookup) (r' : Registry.Lookup) : Prop :=
  ∀ location name, Agrees definitions (r location name) (r' location name)

theorem agrees_pure (a : α) : Agrees definitions (pure a) (pure a) :=
  fun _ hp => ⟨rfl, hp⟩

theorem agrees_throw (fault : LoadFault) :
    Agrees definitions (throw (Raised.ofLoadFault fault) : Attempting α) (throw fault) :=
  fun _ hp => ⟨rfl, hp⟩

theorem Agrees.bind {y : Attempting α} {x : Resolve α} {g : α → Attempting β} {f : α → Resolve β}
    (h : Agrees definitions y x) (hnext : ∀ a, Agrees definitions (g a) (f a)) :
    Agrees definitions (y >>= g) (x >>= f) := by
  intro p hp
  obtain ⟨hrun, hr⟩ := h p hp
  rw [run_bind, run_bind, hrun]
  revert hr
  cases x.run.run p with
  | mk result r =>
      cases result with
      | ok a => exact hnext a r
      | error fault => exact fun hr => ⟨rfl, hr⟩

/-- A handler for the errors of combinators does not touch what agrees, for these are all handled. -/
theorem Agrees.translating {y : Attempting α} {x : Resolve α} (h : Agrees definitions y x)
    (location : Location) : Agrees definitions (translating location y) x := by
  intro p hp
  obtain ⟨hrun, hr⟩ := h p hp
  refine ⟨?_, hr⟩
  rw [Attempting.translating, run_adapt, hrun]
  cases (x.run.run p).1 with
  | ok a => rfl
  | error fault => cases fault <;> rfl

theorem translating_pure (location : Location) (a : α) :
    translating location (pure a) = pure a := rfl

theorem translating_bind (location : Location) (y : Attempting α) (g : α → Attempting β) :
    translating location (y >>= g) = translating location y >>= fun a => translating location (g a) :=
  adapt_bind _ y g

theorem agrees_raising (text : Option String) : Agrees definitions (raising .value text) (needed text) := by
  cases text with
  | some s => exact agrees_pure s
  | none => exact agrees_throw .numberTooLong

theorem agrees_report (records : List Log.Record) :
    Agrees definitions (report records) (Registry.report records) :=
  fun _ hp => ⟨rfl, hp⟩

theorem agrees_combinator (location : Location) (key : Value) :
    Agrees definitions (combinator location key) (Registry.combinator location key) := by
  cases key with
  | str name =>
      simp only [combinator, Registry.combinator]
      cases Combinator.ofName? name with
      | some c => exact agrees_pure c
      | none => exact agrees_throw (.broken location _)
  | _ => exact (agrees_raising _).bind fun text => agrees_throw (.broken location (.unknownCombinator text))

/-! ### Combinators and their checks -/

/-- What a combinator finds wrong is handled at the place of the definition. -/
theorem agrees_combining (location : Location) {x : Except BuildFault α} (h : Answers x) :
    Agrees definitions (translating location (combining x)) (checked location x) := by
  cases h with
  | ok a => exact agrees_pure a
  | definition fault => exact agrees_throw (.broken location (.definition fault))

theorem agrees_one (location : Location) (c : Combinator) (mk : Schema → Schema) (s : Schema) :
    Agrees definitions (translating location (one c mk s)) (pure (mk s)) :=
  agrees_pure (mk s)

theorem agrees_keyed (location : Location) (c : Combinator) (mk : List (String × Schema) → Schema)
    (fields : List (String × Schema)) :
    Agrees definitions (translating location (keyed c mk fields)) (pure (mk fields)) := by
  rw [keyed, Schema.requireFields_eq_ok.mpr rfl]
  exact agrees_pure (mk fields)

theorem agrees_indexed (location : Location) (positions : List Schema) :
    Agrees definitions (translating location (indexed positions)) (pure (Schema.tuple positions)) := by
  rw [indexed, Schema.requirePositions_eq_ok.mpr rfl]
  exact agrees_pure (Schema.tuple positions)

theorem agrees_enumerated (location inside : Location) (argument : Value) :
    Agrees definitions (translating location (enumerated inside argument))
      (do return .oneOf (← membersOf location inside argument)) := by
  cases argument with
  | list items =>
      rw [enumerated, translating_bind]
      exact (agrees_combining location (answers_requireMembers (by simp) rfl)).bind fun members =>
        agrees_pure (Schema.oneOf members)
  | map entries =>
      rw [enumerated, translating_bind]
      exact (agrees_combining location (answers_requireMembers (by simp) rfl)).bind fun members =>
        agrees_pure (Schema.oneOf members)
  | _ => exact agrees_throw (.broken inside .membersNotCollection)

theorem agrees_tagged (location : Location) (branches : List Schema.Branch) :
    Agrees definitions (translating location (tagged branches)) (do
      let s ← checked location (Schema.variantOf Schema.defaultDiscriminant branches)
      Registry.report (Schema.tagWarnings (branches.map (·.1)))
      return s) := by
  rw [tagged, translating_bind]
  exact (agrees_combining location (answers_variantOf _ branches)).bind fun s =>
    (agrees_report _).bind fun _ => agrees_pure s

theorem agrees_branchOf (location : Location) (tag : String) (s : Schema) :
    Agrees definitions (translating location (combining (Schema.branchOf (.value (.str tag)) (.schema s))))
      (checked location (Schema.requireBranch tag (.schema s))) :=
  agrees_combining location (answers_requireBranch tag s)

/-! ### The builder -/

section

variable {r : Lookup} {r' : Registry.Lookup}

theorem agrees_notDefinition (location : Location) (d : Value) :
    Agrees definitions
      (do throw (.own (.broken location (.notDefinition (← raising .value d.written?)))) : Attempting Schema)
      (do throw (.broken location (.notDefinition (← needed d.written?)))) :=
  (agrees_raising d.written?).bind fun text => agrees_throw (.broken location (.notDefinition text))

mutual

theorem agrees_build (href : AgreesLookup definitions r r') (location : Location) (d : Value) :
    Agrees definitions (build r location d) (Registry.build r' location d) := by
  match d with
  | .str name =>
      rw [build, Registry.build]
      cases Scalar.ofName? name with
      | some kind => exact agrees_pure (Schema.scalar kind)
      | none => exact href location name
  | .map [(key, argument)] =>
      rw [build, Registry.build]
      refine (agrees_combinator location key).bind fun c => ?_
      have hinner := agrees_build href (location.step (.combinator c)) argument
      have hfields := agrees_fieldsOf href (location.step (.combinator c)) argument
      have hpositions := agrees_positionsOf href (location.step (.combinator c)) argument
      have hbranches := agrees_branchesOf href location (location.step (.combinator c)) argument
      cases c with
      | optional | nullable | array =>
          rw [translating_bind]
          exact (hinner.translating location).bind fun s => agrees_one location _ _ s
      | object | partialObject =>
          rw [translating_bind]
          exact (hfields.translating location).bind fun fields => agrees_keyed location _ _ fields
      | tuple =>
          rw [translating_bind]
          exact (hpositions.translating location).bind fun positions => agrees_indexed location positions
      | oneOf => exact agrees_enumerated location _ argument
      | variant =>
          rw [translating_bind]
          exact hbranches.bind fun branches => agrees_tagged location branches
  | .map [] => exact agrees_notDefinition location (.map [])
  | .map (e :: e' :: entries) => exact agrees_notDefinition location (.map (e :: e' :: entries))
  | .null => exact agrees_notDefinition location .null
  | .bool b => exact agrees_notDefinition location (.bool b)
  | .int n => exact agrees_notDefinition location (.int n)
  | .float x => exact agrees_notDefinition location (.float x)
  | .list items => exact agrees_notDefinition location (.list items)
  | .tuple items => exact agrees_notDefinition location (.tuple items)
  | .datetime t => exact agrees_notDefinition location (.datetime t)
  | .day n => exact agrees_notDefinition location (.day n)
  | .bytes bs => exact agrees_notDefinition location (.bytes bs)
  | .set items => exact agrees_notDefinition location (.set items)
  | .record attributes => exact agrees_notDefinition location (.record attributes)

theorem agrees_fieldsOf (href : AgreesLookup definitions r r') (inside : Location) (d : Value) :
    Agrees definitions (fieldsOf r inside d) (Registry.fieldsOf r' inside d) := by
  match d with
  | .map entries => exact agrees_buildFields href inside [] entries
  | .null | .bool _ | .int _ | .float _ | .str _ | .list _ | .tuple _ | .datetime _ | .day _ | .bytes _
  | .set _ | .record _ => exact agrees_throw (.broken inside .fieldsNotMap)

theorem agrees_positionsOf (href : AgreesLookup definitions r r') (inside : Location) (d : Value) :
    Agrees definitions (positionsOf r inside d) (Registry.positionsOf r' inside d) := by
  match d with
  | .list items => exact agrees_buildPositions href inside 0 items
  | .null | .bool _ | .int _ | .float _ | .str _ | .map _ | .tuple _ | .datetime _ | .day _ | .bytes _
  | .set _ | .record _ => exact agrees_throw (.broken inside .positionsNotList)

/-- The combinator takes the branches while they are built, so the handler is around the building. -/
theorem agrees_branchesOf (href : AgreesLookup definitions r r') (location inside : Location) (d : Value) :
    Agrees definitions (translating location (branchesOf r inside d))
      (Registry.branchesOf r' location inside d) := by
  match d with
  | .map entries => exact agrees_buildBranches href location inside entries
  | .null | .bool _ | .int _ | .float _ | .str _ | .list _ | .tuple _ | .datetime _ | .day _ | .bytes _
  | .set _ | .record _ => exact agrees_throw (.broken inside .branchesNotMap)

theorem agrees_buildFields (href : AgreesLookup definitions r r') (inside : Location)
    (found : List (String × Schema)) (entries : List (Value × Value)) :
    Agrees definitions (buildFields r inside found entries)
      (Registry.buildFields r' inside found entries) := by
  match entries with
  | [] => exact agrees_pure found
  | (key, d) :: entries =>
      exact (agrees_raising key.text?).bind fun name =>
        (agrees_build href (inside.step (.key name)) d).bind fun s =>
          agrees_buildFields href inside (Named.put name s found) entries

theorem agrees_buildPositions (href : AgreesLookup definitions r r') (inside : Location) (i : Nat)
    (items : List Value) :
    Agrees definitions (buildPositions r inside i items) (Registry.buildPositions r' inside i items) := by
  match items with
  | [] => exact agrees_pure []
  | d :: items =>
      exact (agrees_build href (inside.step (.index i)) d).bind fun s =>
        (agrees_buildPositions href inside (i + 1) items).bind fun rest => agrees_pure (s :: rest)

theorem agrees_buildBranches (href : AgreesLookup definitions r r') (location inside : Location)
    (entries : List (Value × Value)) :
    Agrees definitions (translating location (buildBranches r inside entries))
      (Registry.buildBranches r' location inside entries) := by
  match entries with
  | [] => exact agrees_pure []
  | (key, d) :: entries =>
      simp only [buildBranches, Registry.buildBranches, translating_bind, translating_pure]
      exact ((agrees_raising key.text?).translating location).bind fun tag =>
        ((agrees_build href (inside.step (.key tag)) d).translating location).bind fun s =>
          (agrees_branchOf location tag s).bind fun branch =>
            (agrees_buildBranches href location inside entries).bind fun rest => agrees_pure (branch :: rest)

end

end

/-! ### Names -/

theorem agrees_get_bind {g : Progress → Attempting β} {f : Progress → Resolve β}
    (h : ∀ p, p.Known definitions → Agrees definitions (g p) (f p)) :
    Agrees definitions (get >>= g) (get >>= f) :=
  fun p hp => h p hp p hp

theorem agrees_modify {f : Progress → Progress} (h : ∀ p, p.Known definitions → (f p).Known definitions) :
    Agrees definitions (modify f) (modify f) :=
  fun p hp => ⟨rfl, h p hp⟩

theorem known_add {name : String} (hname : name ∈ definitions.map Prod.fst) (s : Schema) {p : Progress}
    (hp : p.Known definitions) :
    Progress.Known definitions { p with built := p.built ++ [(name, s)] } := by
  intro e he
  rcases List.mem_append.mp he with he | he
  · exact hp e he
  · rw [List.mem_singleton.mp he]
    exact hname

/-- Nothing is found under a name without a definition. -/
theorem lookup_eq_none {p : Progress} (hp : p.Known definitions) {name : String}
    (hname : name ∉ definitions.map Prod.fst) : p.built.lookup name = none := by
  cases hlookup : p.built.lookup name with
  | none => rfl
  | some s => exact absurd (hp _ (Named.mem_of_lookup hlookup)) hname

section

variable {more : Nat} {inProgress : List String}

/-- The test before the look-up refuses what resolving refuses in the end. -/
theorem agrees_defined (hsub : inProgress ⊆ definitions.map Prod.fst)
    (h : ∀ location, ∀ name ∈ definitions.map Prod.fst,
      Agrees definitions (named definitions more inProgress name)
        (resolve definitions more inProgress location name)) :
    AgreesLookup definitions (defined definitions (named definitions more inProgress))
      (resolve definitions more inProgress) := by
  intro location name
  by_cases hname : name ∈ definitions.map Prod.fst
  · rw [defined, if_pos hname]
    exact h location name hname
  · rw [defined, if_neg hname]
    have hlookup : definitions.lookup name = none := by
      rw [← Option.not_isSome_iff_eq_none, Named.isSome_lookup]
      exact hname
    have hprogress : name ∉ inProgress := fun hmem => hname (hsub hmem)
    change Agrees definitions (get >>= fun _ => throw (Raised.ofLoadFault (.broken location (.unknownName name))))
      _
    unfold resolve
    refine agrees_get_bind fun p hp => ?_
    simp only [lookup_eq_none hp hname, hlookup, if_neg hprogress]
    exact agrees_throw _

/-- Names in progress have definitions and are all different, so there are always steps left for one more. -/
theorem agrees_named (hnodup : inProgress.Nodup) (hsub : inProgress ⊆ definitions.map Prod.fst)
    (hmore : definitions.length ≤ more + inProgress.length) (location : Location) {name : String}
    (hname : name ∈ definitions.map Prod.fst) :
    Agrees definitions (named definitions more inProgress name)
      (resolve definitions more inProgress location name) := by
  induction more generalizing inProgress location name with
  | zero =>
      unfold named resolve
      refine agrees_get_bind fun p hp => ?_
      cases p.built.lookup name with
      | some s => exact agrees_pure s
      | none =>
          by_cases hmem : name ∈ inProgress
          · simp only [if_pos hmem]
            exact agrees_throw (.cyclic (cycleFrom name inProgress))
          · have hroom := length_lt_of_subset hnodup hsub hname hmem
            omega
  | succ more ih =>
      unfold named resolve
      refine agrees_get_bind fun p hp => ?_
      cases p.built.lookup name with
      | some s => exact agrees_pure s
      | none =>
          by_cases hmem : name ∈ inProgress
          · simp only [if_pos hmem]
            exact agrees_throw (.cyclic (cycleFrom name inProgress))
          · obtain ⟨d, hlookup⟩ := Named.exists_lookup hname
            have hnodup' : (inProgress ++ [name]).Nodup := by
              rw [List.nodup_append_comm]
              exact List.nodup_cons.mpr ⟨hmem, hnodup⟩
            have hsub' : inProgress ++ [name] ⊆ definitions.map Prod.fst :=
              List.append_subset.mpr ⟨hsub, List.cons_subset.mpr ⟨hname, List.nil_subset _⟩⟩
            have hmore' : definitions.length ≤ more + (inProgress ++ [name]).length := by
              simp only [List.length_append, List.length_singleton]
              omega
            have hrefs := agrees_defined hsub' fun location other hother =>
              ih hnodup' hsub' hmore' location hother
            simp only [if_neg hmem, hlookup]
            exact (agrees_build hrefs ⟨name, []⟩ d).bind fun s =>
              (agrees_modify fun p hp => known_add hname s hp).bind fun _ => agrees_pure s

end

theorem agrees_allNamed {names : List String} (hnames : names ⊆ definitions.map Prod.fst) :
    Agrees definitions (allNamed definitions names) (resolveAll definitions names) := by
  induction names with
  | nil => exact agrees_pure []
  | cons name names ih =>
      obtain ⟨hname, hnames⟩ := List.cons_subset.mp hnames
      exact (agrees_named List.nodup_nil (List.nil_subset _) (Nat.le_add_right _ _) ⟨name, []⟩ hname).bind
        fun s => (ih hnames).bind fun rest => agrees_pure ((name, s) :: rest)

/-! ### Documents -/

/-- Whatever reading the document raises is handled. -/
theorem adapt_definitionsIn (document : Value) :
    ExceptT.adapt atDocument (definitionsIn document) =
      match readDefinitions document with
      | .ok definitions => pure definitions
      | .error fault => throw (Raised.ofLoadFault fault) := by
  cases document with
  | map entries =>
      unfold definitionsIn readDefinitions
      simp only
      split
      · rfl
      · cases versionComplaints entries <;> cases definitionsOf entries <;> rfl
  | _ => rfl

theorem run_loadSchemas (document : Value) :
    (loadSchemas document).run.run ⟨[], []⟩ =
      (((Registry.loadSchemas document).run.run ⟨[], []⟩).1.mapError Raised.ofLoadFault,
        ((Registry.loadSchemas document).run.run ⟨[], []⟩).2) := by
  have hagrees : ∃ definitions, Agrees definitions (loadSchemas document) (Registry.loadSchemas document) := by
    unfold loadSchemas Registry.loadSchemas
    rw [adapt_definitionsIn]
    cases readDefinitions document with
    | error fault => exact ⟨[], agrees_throw fault⟩
    | ok definitions =>
        refine ⟨definitions, ?_⟩
        by_cases hshadowing : (shadowing (definitions.map (·.1))).isEmpty = true
        · simp only [pure_bind, if_pos hshadowing]
          exact (agrees_allNamed (List.Subset.refl _)).bind fun schemas =>
            (agrees_report _).bind fun _ => agrees_pure schemas
        · simp only [pure_bind, if_neg hshadowing]
          exact agrees_throw (.shadowing _)
  obtain ⟨definitions, hagrees⟩ := hagrees
  exact (hagrees ⟨[], []⟩ (by simp [Progress.Known])).1

end Attempting

/-- Loading by operations that raise is loading: a fault is the registry's own error, except that a number too
long to be shown raises. -/
theorem attemptDocument_eq (maxDepth : Option Int) (document : Value) :
    attemptDocument maxDepth document =
      ((ofDocument maxDepth document).1.mapError Raised.ofLoadFault, (ofDocument maxDepth document).2) := by
  unfold attemptDocument ofDocument
  rw [Attempting.run_loadSchemas]
  cases (loadSchemas document).run.run ⟨[], []⟩ with
  | mk result progress => cases result <;> rfl

end Wireform.Registry
