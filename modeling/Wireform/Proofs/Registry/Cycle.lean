import Wireform.Proofs.Registry.Failure
import Mathlib.Data.List.Chain

/-!
# Reported cycles

The names in progress are at all times a trail: they are all different, the definition of each mentions the
next one, and that of the last one mentions the name at hand. So a name that is met again closes a cycle, and
the trail from its first place on is what is reported. Every other fault stands at a place in one of the
definitions, and its message begins with the name of that definition.
-/
namespace Wireform.Registry

variable {definitions : List (String × Value)} {inProgress : List String} {name : String}

/-- The way from a name over others back to it: no name comes twice, and each one's definition mentions the
next. -/
structure Cycle (definitions : List (String × Value)) (first : String) (rest : List String) : Prop where
  nodup : (first :: rest).Nodup
  chain : (first :: rest ++ [first]).IsChain (Refers definitions)

/-- What holds of the names in progress when a name is looked up. -/
structure Trail (definitions : List (String × Value)) (inProgress : List String) (name : String) : Prop where
  nodup : inProgress.Nodup
  chain : (inProgress ++ [name]).IsChain (Refers definitions)

theorem trail_nil (definitions : List (String × Value)) (name : String) : Trail definitions [] name :=
  ⟨List.nodup_nil, List.isChain_singleton name⟩

/-- Names on a way have definitions, but for the last one. -/
theorem subset_of_chain {names : List String} {last : String}
    (h : (names ++ [last]).IsChain (Refers definitions)) : names ⊆ definitions.map Prod.fst := by
  intro name hname
  obtain ⟨before, after, rfl⟩ := List.append_of_mem hname
  -- Whatever comes next, the name refers to it.
  obtain ⟨other, more, hnext⟩ : ∃ other more, after ++ [last] = other :: more :=
    List.exists_cons_of_ne_nil (by simp)
  rw [List.append_assoc, List.cons_append, hnext, List.isChain_append_cons_cons] at h
  exact mem_of_refers (.single h.2.1)

/-- A step along a reference: the name at hand is in progress next. -/
theorem Trail.extend {other : String} (h : Trail definitions inProgress name) (hnew : name ∉ inProgress)
    (hrefers : Refers definitions name other) : Trail definitions (inProgress ++ [name]) other := by
  refine ⟨List.nodup_append.mpr ⟨h.nodup, List.nodup_singleton name, ?_⟩, ?_⟩
  · rintro n hn m hm rfl
    exact hnew (List.mem_singleton.mp hm ▸ hn)
  · rw [List.append_assoc, List.singleton_append, List.isChain_append_cons_cons]
    exact ⟨h.chain, hrefers, List.isChain_singleton other⟩

/-- A name that is met again closes a cycle; the names before its first place are dropped. -/
theorem Trail.cycle (h : Trail definitions inProgress name) (hmem : name ∈ inProgress) :
    ∃ rest, cycleFrom name inProgress = name :: rest ++ [name] ∧ Cycle definitions name rest := by
  obtain ⟨before, rest, rfl, hbefore⟩ := List.eq_append_cons_of_mem hmem
  have hdrop : (before ++ name :: rest).dropWhile (· != name) = name :: rest := by
    rw [List.dropWhile_append_of_pos, List.dropWhile_cons_of_neg (by simp)]
    intro n hn
    have hne : n ≠ name := by
      rintro rfl
      exact hbefore hn
    simpa using hne
  refine ⟨rest, by rw [cycleFrom, hdrop], (List.nodup_append.mp h.nodup).2.1, ?_⟩
  have hchain := h.chain
  rw [List.append_assoc] at hchain
  exact hchain.right_of_append

/-! ### What a fault says -/

/-- A fault names a cycle, or a place in one of the definitions. -/
inductive Explained (definitions : List (String × Value)) : LoadFault → Prop
  | cyclic {first : String} {rest : List String} : Cycle definitions first rest →
      Explained definitions (.cyclic (first :: rest ++ [first]))
  | broken {location : Location} {reason : Reason} : location.name ∈ definitions.map Prod.fst →
      Explained definitions (.broken location reason)
  | numberTooLong : Explained definitions .numberTooLong

section

variable {reference : Lookup} {location : Location} {p : Progress} {fault : LoadFault}

theorem name_of_mem_places {c : Combinator} {argument : Value} {place : Location × Value}
    (h : place ∈ places location c argument) : place.1.name = location.name := by
  have hkeys (inside : Location) {entries : List (Value × Value)} (h : place ∈ keyPlaces inside entries) :
      place.1.name = inside.name := by
    obtain ⟨e, -, rfl⟩ := List.mem_map.mp h
    rfl
  have hindices (inside : Location) {items : List Value} (h : place ∈ indexPlaces inside 0 items) :
      place.1.name = inside.name := by
    obtain ⟨t, -, rfl⟩ := List.mem_map.mp h
    rfl
  cases c with
  | optional | nullable | array =>
      rw [List.mem_singleton.mp h]
      rfl
  | object | partialObject | variant =>
      cases argument with
      | map entries => exact hkeys (location.step _) h
      | _ => cases h
  | tuple =>
      cases argument with
      | list items => exact hindices (location.step _) h
      | _ => cases h
  | oneOf => cases h

theorem Refuses.explained {c : Combinator} {argument : Value}
    (h : Refuses reference location c argument p fault) (hname : location.name ∈ definitions.map Prod.fst) :
    Explained definitions fault := by
  cases h with
  | key => exact .numberTooLong
  | _ => exact .broken hname

theorem Shown.explained {d : Value} (h : Shown location d fault)
    (hname : location.name ∈ definitions.map Prod.fst) : Explained definitions fault := by
  cases h with
  | longKey | long => exact .numberTooLong
  | _ => exact .broken hname

/-- Building a definition fails at a place in it, or with the fault of a name that it mentions. -/
theorem explained_build (d : Value) :
    (∀ name, Mentions d name → ∀ {location p fault}, location.name ∈ definitions.map Prod.fst →
      Fails (reference location name) p fault → Explained definitions fault) →
    ∀ {location p fault}, location.name ∈ definitions.map Prod.fst →
      Fails (build reference location d) p fault → Explained definitions fault := by
  induction d using definition_induction with
  | text name =>
      intro href location p fault hname h
      exact href name (.self name) hname (fails_build_str.mp h).2
  | apply c argument ih =>
      intro href location p fault hname h
      rcases fails_build_combined h with hstops | hrefuses
      · obtain ⟨place, hplace, q, hfails⟩ := hstops.exists
        have hpart := mem_parts_of_places hplace
        refine ih _ hpart (fun name hmention => href name (.part hpart hmention)) ?_ hfails
        rw [name_of_mem_places hplace]
        exact hname
      · exact hrefuses.explained hname
  | other d htext hcombined =>
      intro _ location p fault hname h
      exact (fails_build_other htext hcombined h).explained hname

end

/-- The invariant of resolving: along a trail, and with no fewer steps left than names that are not in
progress, every fault is explained. -/
theorem explained_resolve {more : Nat} {location : Location} {p : Progress} {fault : LoadFault}
    (htrail : Trail definitions inProgress name) (hmore : definitions.length ≤ more + inProgress.length)
    (hlocation : location.name ∈ definitions.map Prod.fst)
    (h : Fails (resolve definitions more inProgress location name) p fault) :
    Explained definitions fault := by
  induction more generalizing inProgress name location p fault with
  | zero =>
      cases (fails_resolve h).2 with
      | cyclic hmem =>
          obtain ⟨rest, heq, hcycle⟩ := htrail.cycle hmem
          exact heq ▸ .cyclic hcycle
      | unknown => exact .broken hlocation
      | exhausted hnew hlookup =>
          -- There is a level left, since the name has a definition and is not in progress.
          have hname := List.mem_map_of_mem (f := Prod.fst) (Named.mem_of_lookup hlookup)
          have hroom := length_lt_of_subset htrail.nodup (subset_of_chain htrail.chain) hname hnew
          omega
  | succ more ih =>
      cases (fails_resolve h).2 with
      | cyclic hmem =>
          obtain ⟨rest, heq, hcycle⟩ := htrail.cycle hmem
          exact heq ▸ .cyclic hcycle
      | unknown => exact .broken hlocation
      | inside hnew hlookup hbuild =>
          have hname := List.mem_map_of_mem (f := Prod.fst) (Named.mem_of_lookup hlookup)
          refine explained_build _ (fun other hmention location p fault hlocation hfails => ?_) hname hbuild
          refine ih (htrail.extend hnew ⟨_, hlookup, hmention⟩) ?_ hlocation hfails
          simp only [List.length_append, List.length_singleton]
          omega

theorem explained_resolveAll {names : List String} {p : Progress} {fault : LoadFault}
    (hnames : names ⊆ definitions.map Prod.fst) (h : Fails (resolveAll definitions names) p fault) :
    Explained definitions fault := by
  induction names generalizing p with
  | nil => exact absurd h fails_pure
  | cons name names ih =>
      obtain ⟨hname, hrest⟩ := List.cons_subset.mp hnames
      simp only [resolveAll, fails_bind, fails_pure, and_false, exists_false, or_false] at h
      rcases h with h | ⟨s, q, -, h⟩
      · exact explained_resolve (trail_nil definitions name) (Nat.le_add_right _ _) hname h
      · exact ih hrest h

/-! ### Messages -/

/-- How the message about a cycle begins. -/
def cyclePrefix : String := "cyclic schema reference: "

/-- What follows the name of a definition in a message begins with one of three characters. -/
theorem exists_head (steps : List Step) (message : String) : ∃ c tail, (c = ':' ∨ c = '.' ∨ c = '[') ∧
    (String.join (steps.map Step.text) ++ (": " ++ message)).toList = c :: tail := by
  cases steps with
  | nil => exact ⟨':', ' ' :: message.toList, .inl rfl, by simp⟩
  | cons s steps =>
      obtain ⟨c, tail, hc, htail⟩ : ∃ c tail, (c = '.' ∨ c = '[') ∧ s.text.toList = c :: tail := by
        cases s with
        | combinator c => exact ⟨'.', c.name.toList, .inl rfl, by simp [Step.text]⟩
        | key k => exact ⟨'.', k.toList, .inl rfl, by simp [Step.text]⟩
        | index i => exact ⟨'[', (toString i ++ "]").toList, .inr rfl, by simp [Step.text]⟩
      refine ⟨c, tail ++ (String.join (steps.map Step.text) ++ (": " ++ message)).toList, .inr hc, ?_⟩
      rw [List.map_cons, String.join_cons, String.append_assoc, String.toList_append, htail, List.cons_append]

/-- Of these characters only the colon stands in the beginning of the message about a cycle, and once. -/
theorem eq_of_cyclePrefix {name rest : List Char} {c : Char} (hc : c = ':' ∨ c = '.' ∨ c = '[')
    (h : cyclePrefix.toList = name ++ c :: rest) : name = "cyclic schema reference".toList := by
  have hcolon : cyclePrefix.toList = "cyclic schema reference".toList ++ ':' :: [' '] := rfl
  have hmem : c ∈ "cyclic schema reference".toList ++ ':' :: [' '] := by
    rw [← hcolon, h]
    simp
  obtain rfl : c = ':' := by
    rcases hc with rfl | rfl | rfl
    · rfl
    · exact absurd hmem (by decide)
    · exact absurd hmem (by decide)
  rw [hcolon] at h
  exact ((List.append_cons_inj_of_notMem (by decide) (by decide)).mp h).1.symm

/-- A text that begins with a name and one of these characters, and also as the message about a cycle does, has
one of two kinds of names. -/
theorem name_of_chars {name tail text : List Char} {c : Char} (hc : c = ':' ∨ c = '.' ∨ c = '[')
    (h : name ++ c :: tail = cyclePrefix.toList ++ text) :
    name = "cyclic schema reference".toList ∨ ∃ more, name = cyclePrefix.toList ++ more := by
  rcases List.append_eq_append_iff.mp h with ⟨as, has, hrest⟩ | ⟨more, hmore, -⟩
  · cases as with
    | nil =>
        rw [List.append_nil] at has
        exact .inr ⟨[], by rw [List.append_nil, has]⟩
    | cons a as =>
        rw [← (List.cons.inj hrest).1] at has
        exact .inl (eq_of_cyclePrefix hc has)
  · exact .inr ⟨more, hmore⟩

/-- A message that begins like the one about a cycle, although it is about a place, begins with the name of a
schema that is called so. -/
theorem name_of_message {location : Location} {reason : Reason} {text : String}
    (h : (LoadFault.broken location reason).message = cyclePrefix ++ text) :
    location.name = "cyclic schema reference" ∨ ∃ more, location.name = cyclePrefix ++ more := by
  obtain ⟨c, tail, hc, htail⟩ := exists_head location.steps reason.message
  have htext : location.name ++ (String.join (location.steps.map Step.text) ++ (": " ++ reason.message)) =
      cyclePrefix ++ text := by
    rw [← String.append_assoc, ← Location.text, ← String.append_assoc]
    exact h
  have hchars : location.name.toList ++ c :: tail = cyclePrefix.toList ++ text.toList := by
    rw [← htail, ← String.toList_append, htext, String.toList_append]
  rcases name_of_chars hc hchars with hname | ⟨more, hmore⟩
  · exact .inl (String.toList_injective hname)
  · refine .inr ⟨String.ofList more, String.toList_injective ?_⟩
    rw [hmore, String.toList_append, String.toList_ofList]

/-- Loading a document fails with what was found reading it, or at its definitions. -/
theorem explained_ofDocument {maxDepth : Option Int} {document : Value} {fault : LoadFault}
    (h : (ofDocument maxDepth document).1 = .error fault) :
    (∃ definitions, readDefinitions document = .ok definitions ∧ Explained definitions fault) ∨
      readDefinitions document = .error fault ∨ ∃ names, fault = .shadowing names := by
  have hload := ofDocument_eq_error.mp h
  unfold loadSchemas at hload
  cases hread : readDefinitions document with
  | error other =>
      rw [hread] at hload
      exact .inr (.inl (congrArg Except.error (fails_throw.mp hload)))
  | ok definitions =>
      simp only [hread] at hload
      split at hload
      · simp only [fails_bind, not_fails_report, fails_pure, and_false, exists_false, or_false] at hload
        exact .inl ⟨definitions, rfl, explained_resolveAll (List.Subset.refl _) hload⟩
      · exact .inr (.inr ⟨_, (fails_throw.mp hload).symm⟩)

theorem message_of_readDefinitions {document : Value} {fault : LoadFault}
    (h : readDefinitions document = .error fault) : fault.message = "malformed schema registry" := by
  cases document with
  | map entries =>
      simp only [readDefinitions] at h
      split at h
      · cases h
        rfl
      · split at h <;> cases h <;> rfl
  | _ =>
      cases h
      rfl

theorem head?_cyclePrefix (text : String) : (cyclePrefix ++ text).toList.head? = some 'c' := by
  rw [String.toList_append]
  rfl

/-- A message that begins like the one about a cycle names a cycle that is there: from its first name each one's
definition mentions the next, until the first name comes again, and no other name comes twice. Otherwise it is
about a place in the definition of a schema that is itself called so. -/
theorem cycle_of_message {maxDepth : Option Int} {document : Value} {fault : LoadFault} {text : String}
    (h : (ofDocument maxDepth document).1 = .error fault)
    (hmessage : fault.message = "cyclic schema reference: " ++ text) :
    ∃ definitions, readDefinitions document = .ok definitions ∧
      ((∃ first rest, text = " -> ".intercalate (first :: rest ++ [first]) ∧ Cycle definitions first rest) ∨
        ∃ location reason, fault = .broken location reason ∧ location.name ∈ definitions.map Prod.fst ∧
          (location.name = "cyclic schema reference" ∨
            ∃ more, location.name = "cyclic schema reference: " ++ more)) := by
  have hhead : fault.message.toList.head? = some 'c' := hmessage ▸ head?_cyclePrefix text
  rcases explained_ofDocument h with ⟨definitions, hread, hexplained⟩ | hread | ⟨names, rfl⟩
  · refine ⟨definitions, hread, ?_⟩
    cases hexplained with
    | @cyclic first rest hcycle =>
        exact .inl ⟨first, rest, ((String.append_right_inj _).mp hmessage).symm, hcycle⟩
    | @broken location reason hname =>
        exact .inr ⟨location, reason, rfl, hname, name_of_message hmessage⟩
    | numberTooLong => exact absurd hhead (by decide)
  · rw [message_of_readDefinitions hread] at hhead
    exact absurd hhead (by decide)
  · change ("schema names shadow scalar schemas: " ++ Text.quoteList names).toList.head? = some 'c' at hhead
    rw [String.toList_append] at hhead
    exact absurd hhead (by simp)

/-- A cycle of two names that a third one leads to. -/
def leadIn : List (String × Value) :=
  [("start", combined .optional (.str "a")), ("a", combined .array (.str "b")),
    ("b", combined .tuple (.list [.str "string", .str "a"]))]

theorem cycle_of_message_leadIn :
    ∃ definitions, readDefinitions (document leadIn) = .ok definitions ∧
      ((∃ first rest, "a -> b -> a" = " -> ".intercalate (first :: rest ++ [first]) ∧
          Cycle definitions first rest) ∨
        ∃ location reason, LoadFault.cyclic ["a", "b", "a"] = .broken location reason ∧
          location.name ∈ definitions.map Prod.fst ∧ (location.name = "cyclic schema reference" ∨
            ∃ more, location.name = "cyclic schema reference: " ++ more)) := by
  have hfails : (ofDocument none (document leadIn)).1 = .error (.cyclic ["a", "b", "a"]) :=
    (map_eq_error (f := fun _ => ())).mp (by decide +kernel)
  exact cycle_of_message hfails rfl

/-- Not every message that begins so is about a cycle: the place of any fault begins with the name of a
schema. -/
theorem message_without_cycle :
    ¬ ∀ (maxDepth : Option Int) (document : Value) (fault : LoadFault) (text : String),
      (ofDocument maxDepth document).1 = .error fault →
      fault.message = "cyclic schema reference: " ++ text →
      ∃ definitions first rest, readDefinitions document = .ok definitions ∧
        text = " -> ".intercalate (first :: rest ++ [first]) ∧ Cycle definitions first rest := by
  intro hall
  obtain ⟨definitions, first, rest, hread, -, hcycle⟩ :=
    hall none (document [("cyclic schema reference", .str "nope")])
      (.broken ⟨"cyclic schema reference", []⟩ (.unknownName "nope")) "unknown schema name 'nope'"
      ((map_eq_error (f := fun _ => ())).mp (by decide +kernel)) (by decide +kernel)
  rw [readDefinitions_document (by decide)] at hread
  obtain rfl := Except.ok.inj hread
  -- The only name with a definition would have to mention itself.
  have hnames : ∀ n ∈ first :: rest, n = "cyclic schema reference" := fun n hn =>
    List.mem_singleton.mp (subset_of_chain hcycle.chain hn)
  obtain rfl := hnames first List.mem_cons_self
  have hrest : rest = [] := List.eq_nil_iff_forall_not_mem.mpr fun n hn =>
    (List.nodup_cons.mp hcycle.nodup).1 (hnames n (List.mem_cons_of_mem _ hn) ▸ hn)
  subst hrest
  obtain ⟨d, hlookup, hmention⟩ := List.isChain_pair.mp hcycle.chain
  rw [List.lookup_cons_self] at hlookup
  obtain rfl := Option.some.inj hlookup
  exact absurd (mentions_str.mp hmention) (by decide)

end Wireform.Registry
