import Wireform.Registry.Resolver
import Wireform.Proofs.Named
import Wireform.Proofs.Schema.Built
import Mathlib.Logic.Relation
import Mathlib.Data.List.Forall2

/-!
# The meaning of definitions

What a definition may look like, which names it mentions, and which schema it denotes. All of this looks only
at the named definitions of a document; how and in which order names are resolved does not matter. A
definition that denotes a schema is well formed, and following the names that it mentions comes to an end.
-/
namespace Wireform

theorem Combinator.ofName?_name (c : Combinator) : Combinator.ofName? c.name = some c := by
  cases c <;> rfl

theorem Combinator.name_of_ofName? {name : String} {c : Combinator}
    (h : Combinator.ofName? name = some c) : c.name = name := by
  have hmem := Named.mem_of_lookup h
  simp only [Combinator.named, List.mem_cons, List.not_mem_nil, or_false, Prod.mk.injEq] at hmem
  rcases hmem with h | h | h | h | h | h | h | h <;> rw [h.1, h.2] <;> rfl

theorem exists_of_forall₂ {α β : Type} {R : α → β → Prop} {as : List α} {bs : List β}
    (h : List.Forall₂ R as bs) : ∀ a ∈ as, ∃ b ∈ bs, R a b := by
  induction h with
  | nil => simp
  | cons hab _ ih =>
      rw [List.forall_mem_cons]
      refine ⟨⟨_, List.mem_cons_self, hab⟩, fun a ha => ?_⟩
      obtain ⟨b, hb, hab⟩ := ih a ha
      exact ⟨b, List.mem_cons_of_mem _ hb, hab⟩

namespace Registry

/-- The definition that applies a combinator to an argument. -/
def combined (c : Combinator) (argument : Value) : Value :=
  .map [(.str c.name, argument)]

/-- The definitions right inside an argument. -/
def parts : Combinator → Value → List Value
  | .optional, d | .nullable, d | .array, d => [d]
  | .object, .map entries | .partialObject, .map entries | .variant, .map entries =>
    entries.map Prod.snd
  | .tuple, .list items => items
  | _, _ => []

/-- Whether an argument has the form that a combinator asks for, whatever the definitions inside. Any key
will do for a field or a tag if it has a text. -/
def Accepts : Combinator → Value → Prop
  | .optional, _ | .nullable, _ | .array, _ | .tuple, .list _ => True
  | .object, .map entries | .partialObject, .map entries => ∀ e ∈ entries, e.1.text?.isSome
  | .oneOf, .list items => ∀ v ∈ items, ∃ s, v = .str s
  | .oneOf, .map entries => ∀ e ∈ entries, ∃ s, e.1 = .str s
  | .variant, .map entries => entries ≠ [] ∧ ∀ e ∈ entries, e.1.text?.isSome
  | _, _ => False

theorem combined_injective {c c' : Combinator} {argument argument' : Value}
    (h : combined c argument = combined c' argument') : c = c' ∧ argument = argument' := by
  simp only [combined, Value.map.injEq, List.cons.injEq, Prod.mk.injEq, Value.str.injEq, and_true] at h
  have hc := Combinator.ofName?_name c
  rw [h.1, Combinator.ofName?_name] at hc
  exact ⟨(Option.some.inj hc).symm, h.2⟩

theorem sizeOf_part {c : Combinator} {argument d : Value} (h : d ∈ parts c argument) :
    sizeOf d < sizeOf (combined c argument) := by
  have hsize : sizeOf argument < sizeOf (combined c argument) := by
    simp only [combined, Value.map.sizeOf_spec, List.cons.sizeOf_spec, Prod.mk.sizeOf_spec]
    omega
  have hentries {entries : List (Value × Value)} (h : d ∈ entries.map Prod.snd) :
      sizeOf d < sizeOf (Value.map entries) := by
    obtain ⟨e, he, rfl⟩ := List.mem_map.mp h
    have := List.sizeOf_lt_of_mem he
    cases e
    simp only [Value.map.sizeOf_spec, Prod.mk.sizeOf_spec] at this ⊢
    omega
  have hitems {items : List Value} (h : d ∈ items) : sizeOf d < sizeOf (Value.list items) := by
    have := List.sizeOf_lt_of_mem h
    simp only [Value.list.sizeOf_spec]
    omega
  unfold parts at h
  split at h
  · rw [List.mem_singleton.mp h]
    exact hsize
  · rw [List.mem_singleton.mp h]
    exact hsize
  · rw [List.mem_singleton.mp h]
    exact hsize
  · exact Nat.lt_trans (hentries h) hsize
  · exact Nat.lt_trans (hentries h) hsize
  · exact Nat.lt_trans (hentries h) hsize
  · exact Nat.lt_trans (hitems h) hsize
  · cases h

/-- A fact about definitions holds of all values if it holds of names and of whatever is no definition, and
passes from the parts of an argument to the whole. -/
theorem definition_induction {P : Value → Prop} (text : ∀ name, P (.str name))
    (apply : ∀ c argument, (∀ d ∈ parts c argument, P d) → P (combined c argument))
    (other : ∀ v, (∀ name, v ≠ .str name) → (∀ c argument, v ≠ combined c argument) → P v)
    (v : Value) : P v := by
  induction h : sizeOf v using Nat.strongRecOn generalizing v with
  | ind n ih =>
      subst h
      by_cases hcombined : ∃ c argument, v = combined c argument
      · obtain ⟨c, argument, rfl⟩ := hcombined
        exact apply c argument fun d hd => ih _ (sizeOf_part hd) d rfl
      · by_cases htext : ∃ name, v = .str name
        · obtain ⟨name, rfl⟩ := htext
          exact text name
        · exact other v (fun name h => htext ⟨name, h⟩) fun c argument h => hcombined ⟨c, argument, h⟩

variable (definitions : List (String × Value))

/-- Whether a definition is an object once references are followed. -/
inductive ObjectShaped : Value → Prop
  | object (argument : Value) : ObjectShaped (combined .object argument)
  | partialObject (argument : Value) : ObjectShaped (combined .partialObject argument)
  | reference {name : String} {d : Value} : definitions.lookup name = some d → ObjectShaped d →
      ObjectShaped (.str name)

/-- Whether a definition is one: the name of a scalar or of a definition, or a combinator with an argument of
the right form. The branches of a variant have to be objects. -/
inductive WellFormed : Value → Prop
  | scalar {name : String} : (Scalar.ofName? name).isSome → WellFormed (.str name)
  | reference {name : String} : name ∈ definitions.map Prod.fst → WellFormed (.str name)
  | apply {c : Combinator} {argument : Value} : Accepts c argument →
      (∀ d ∈ parts c argument, WellFormed d) →
      (c = .variant → ∀ d ∈ parts c argument, ObjectShaped definitions d) →
      WellFormed (combined c argument)

/-- `Mentions d name`: the definition `d` has the name in the place of a definition. -/
inductive Mentions : Value → String → Prop
  | self (name : String) : Mentions (.str name) name
  | part {c : Combinator} {argument d : Value} {name : String} : d ∈ parts c argument →
      Mentions d name → Mentions (combined c argument) name

/-- The definition of one name mentions another one. -/
def Refers (name other : String) : Prop :=
  ∃ d, definitions.lookup name = some d ∧ Mentions d other

/-- What a combinator makes of its argument once the definitions right inside it denote schemas. -/
inductive Assembles : Combinator → Value → List Schema → Schema → Prop
  | optional (d : Value) (s : Schema) : Assembles .optional d [s] (.optional s)
  | nullable (d : Value) (s : Schema) : Assembles .nullable d [s] (.nullable s)
  | array (d : Value) (s : Schema) : Assembles .array d [s] (.array s)
  | object {entries : List (Value × Value)} {fields : List (String × Schema)} :
      entries.map (fun e => e.1.text?) = fields.map (fun f => some f.1) →
      Assembles .object (.map entries) (fields.map Prod.snd) (.object (Named.distinct fields))
  | partialObject {entries : List (Value × Value)} {fields : List (String × Schema)} :
      entries.map (fun e => e.1.text?) = fields.map (fun f => some f.1) →
      Assembles .partialObject (.map entries) (fields.map Prod.snd)
        (Schema.partialObject (Named.distinct fields))
  | tuple (items : List Value) (positions : List Schema) :
      Assembles .tuple (.list items) positions (.tuple positions)
  | items {items : List Value} {members : List String} : Schema.texts? items = some members →
      Assembles .oneOf (.list items) [] (.oneOf members)
  | keys {entries : List (Value × Value)} {members : List String} :
      Schema.texts? (entries.map Prod.fst) = some members →
      Assembles .oneOf (.map entries) [] (.oneOf members)
  | variant {entries : List (Value × Value)} {branches : List Schema.Branch} : branches ≠ [] →
      entries.map (fun e => e.1.text?) = branches.map (fun b => some b.1) →
      Assembles .variant (.map entries) (branches.map fun b => .object b.2)
        (.variant Schema.defaultDiscriminant branches)

/-- `Denotes definitions d s`: with every name standing for its definition, `d` is the schema `s`. -/
inductive Denotes : Value → Schema → Prop
  | scalar {name : String} {kind : Scalar} : Scalar.ofName? name = some kind →
      Denotes (.str name) (.scalar kind)
  | reference {name : String} {d : Value} {s : Schema} : Scalar.ofName? name = none →
      definitions.lookup name = some d → Denotes d s → Denotes (.str name) s
  | apply {c : Combinator} {argument : Value} {ss : List Schema} {s : Schema} :
      (parts c argument).length = ss.length →
      (∀ p ∈ (parts c argument).zip ss, Denotes p.1 p.2) → Assembles c argument ss s →
      Denotes (combined c argument) s

variable {definitions}

/-- A combinator assembles only arguments that it accepts. -/
theorem Assembles.accepts {c : Combinator} {argument : Value} {ss : List Schema} {s : Schema}
    (h : Assembles c argument ss s) : Accepts c argument := by
  have hkeys {α : Type} {entries : List (Value × Value)} {things : List (String × α)}
      (h : entries.map (fun e => e.1.text?) = things.map (fun t => some t.1)) :
      ∀ e ∈ entries, e.1.text?.isSome := by
    intro e he
    have hmem : e.1.text? ∈ things.map fun t => some t.1 :=
      h ▸ List.mem_map_of_mem (f := fun e : Value × Value => e.1.text?) he
    obtain ⟨t, -, ht⟩ := List.mem_map.mp hmem
    simp [← ht]
  cases h with
  | optional | nullable | array | tuple => trivial
  | object h | partialObject h => exact hkeys h
  | items h =>
      obtain rfl := Schema.texts?_eq_some.mp h
      intro v hv
      obtain ⟨s, -, rfl⟩ := List.mem_map.mp hv
      exact ⟨s, rfl⟩
  | keys h =>
      intro e he
      have hmem := List.mem_map_of_mem (f := Prod.fst) he
      rw [Schema.texts?_eq_some.mp h] at hmem
      obtain ⟨s, -, hs⟩ := List.mem_map.mp hmem
      exact ⟨s, hs.symm⟩
  | variant hne h =>
      refine ⟨?_, hkeys h⟩
      rintro rfl
      exact hne (List.map_eq_nil_iff.mp h.symm)

theorem denotes_combined {c : Combinator} {argument : Value} {s : Schema} :
    Denotes definitions (combined c argument) s ↔
      ∃ ss, List.Forall₂ (Denotes definitions) (parts c argument) ss ∧ Assembles c argument ss s := by
  constructor
  · intro h
    generalize hd : combined c argument = d at h
    cases h with
    | apply hlength hparts hassembles =>
        obtain ⟨rfl, rfl⟩ := combined_injective hd
        exact ⟨_, List.forall₂_iff_zip.mpr ⟨hlength, fun hp => hparts _ hp⟩, hassembles⟩
    | _ => cases hd
  · rintro ⟨ss, hparts, hassembles⟩
    exact .apply hparts.length_eq (fun _ hp => List.forall₂_zip hparts hp) hassembles

/-- Induction over the definitions that are looked into, names among them. -/
@[elab_as_elim]
theorem Denotes.induction {P : ∀ d s, Denotes definitions d s → Prop}
    (scalar : ∀ {name kind} (hname : Scalar.ofName? name = some kind),
      P (.str name) (.scalar kind) (.scalar hname))
    (reference : ∀ {name d s} (hname : Scalar.ofName? name = none)
      (hlookup : definitions.lookup name = some d) (hd : Denotes definitions d s), P d s hd →
      P (.str name) s (.reference hname hlookup hd))
    (apply : ∀ {c argument ss s} (h : Denotes definitions (combined c argument) s),
      List.Forall₂ (fun d s => ∃ hd, P d s hd) (parts c argument) ss → Assembles c argument ss s →
      P (combined c argument) s h)
    {d : Value} {s : Schema} (h : Denotes definitions d s) : P d s h := by
  induction h with
  | scalar hname => exact scalar hname
  | reference hname hlookup hd ih => exact reference hname hlookup hd ih
  | apply hlength hparts hassembles ih =>
      refine apply _ (List.forall₂_iff_zip.mpr ⟨hlength, fun hp => ?_⟩) hassembles
      exact ⟨hparts _ hp, ih _ hp⟩

/-- A definition that denotes an object is one. -/
theorem Denotes.objectShaped {d : Value} {s : Schema} (h : Denotes definitions d s) :
    s.fields?.isSome → ObjectShaped definitions d := by
  induction h using Denotes.induction with
  | scalar => simp [Schema.fields?]
  | reference _ hlookup _ ih => exact fun hs => .reference hlookup (ih hs)
  | apply _ _ hassembles =>
      cases hassembles with
      | object => exact fun _ => .object _
      | partialObject => exact fun _ => .partialObject _
      | _ => simp [Schema.fields?]

/-- Unless a scalar has the name of a definition, what is an object denotes one. -/
theorem ObjectShaped.fields {d : Value} (h : ObjectShaped definitions d)
    (hscalars : ∀ e ∈ definitions, Scalar.ofName? e.1 = none) {s : Schema}
    (hs : Denotes definitions d s) : ∃ fields, s = .object fields := by
  induction h generalizing s with
  | object | partialObject =>
      obtain ⟨_, -, hassembles⟩ := denotes_combined.mp hs
      cases hassembles
      exact ⟨_, rfl⟩
  | reference hlookup _ ih =>
      cases hs with
      | scalar hname =>
          have hnone := hscalars _ (Named.mem_of_lookup hlookup)
          simp [hname] at hnone
      | reference _ hlookup' hs =>
          rw [hlookup] at hlookup'
          cases hlookup'
          exact ih hs

theorem Denotes.wellFormed {d : Value} {s : Schema} (h : Denotes definitions d s) :
    WellFormed definitions d := by
  induction h using Denotes.induction with
  | scalar hname => exact .scalar (by simp [hname])
  | reference _ hlookup =>
      exact .reference (List.mem_map_of_mem (Named.mem_of_lookup hlookup))
  | apply _ hparts hassembles =>
      refine .apply hassembles.accepts ?_ ?_
      · intro d hd
        obtain ⟨_, -, -, hwf⟩ := exists_of_forall₂ hparts d hd
        exact hwf
      · rintro rfl d hd
        obtain ⟨s, hs, hdenotes, -⟩ := exists_of_forall₂ hparts d hd
        cases hassembles with
        | variant =>
            obtain ⟨b, -, rfl⟩ := List.mem_map.mp hs
            exact hdenotes.objectShaped rfl

theorem mentions_str {name other : String} : Mentions (.str name) other ↔ other = name := by
  constructor
  · intro h
    cases h
    rfl
  · rintro rfl
    exact .self _

theorem mentions_combined {c : Combinator} {argument : Value} {name : String} :
    Mentions (combined c argument) name ↔ ∃ d ∈ parts c argument, Mentions d name := by
  constructor
  · intro h
    generalize hd : combined c argument = d at h
    cases h with
    | self => cases hd
    | part hmem h =>
        obtain ⟨rfl, rfl⟩ := combined_injective hd
        exact ⟨_, hmem, h⟩
  · rintro ⟨d, hmem, h⟩
    exact .part hmem h

/-- From the names that a definition with a meaning mentions, there is no endless way on. -/
theorem Denotes.acc (hscalars : ∀ e ∈ definitions, Scalar.ofName? e.1 = none) {d : Value} {s : Schema}
    (h : Denotes definitions d s) :
    ∀ name, Mentions d name → Acc (fun other name => Refers definitions name other) name := by
  induction h using Denotes.induction with
  | scalar hname =>
      intro name hmention
      obtain rfl := mentions_str.mp hmention
      refine ⟨_, fun other hrefers => ?_⟩
      obtain ⟨d, hlookup, -⟩ := hrefers
      have hnone := hscalars _ (Named.mem_of_lookup hlookup)
      simp [hname] at hnone
  | reference _ hlookup _ ih =>
      intro name hmention
      obtain rfl := mentions_str.mp hmention
      refine ⟨_, fun other hrefers => ?_⟩
      obtain ⟨d, hlookup', hmention⟩ := hrefers
      rw [hlookup] at hlookup'
      cases hlookup'
      exact ih other hmention
  | apply _ hparts _ =>
      intro name hmention
      obtain ⟨d, hd, hmention⟩ := mentions_combined.mp hmention
      obtain ⟨_, -, -, ih⟩ := exists_of_forall₂ hparts d hd
      exact ih name hmention

/-- What lets the definitions of a document be loaded. -/
structure Loadable (definitions : List (String × Value)) : Prop where
  /-- No name is that of a scalar. -/
  scalars : ∀ e ∈ definitions, Scalar.ofName? e.1 = none
  wellFormed : ∀ e ∈ definitions, WellFormed definitions e.2
  /-- No definition leads back to itself. -/
  acyclic : ∀ name, ¬ Relation.TransGen (Refers definitions) name name

theorem not_transGen_of_acc {R : String → String → Prop} {name : String}
    (h : Acc (fun other name => R name other) name) : ¬ Relation.TransGen R name name := by
  induction h with
  | intro name _ ih =>
      intro hcycle
      obtain ⟨other, hstep, hback⟩ := Relation.TransGen.head'_iff.mp hcycle
      exact ih other hstep (.tail' hback hstep)

/-- Definitions that all denote schemas can be loaded. -/
theorem Loadable.of_denotes (hscalars : ∀ e ∈ definitions, Scalar.ofName? e.1 = none)
    (h : ∀ name ∈ definitions.map Prod.fst, ∃ s, Denotes definitions (.str name) s)
    (hnames : (definitions.map Prod.fst).Nodup) : Loadable definitions := by
  refine ⟨hscalars, fun e he => ?_, fun name hcycle => ?_⟩
  · obtain ⟨s, hs⟩ := h e.1 (List.mem_map_of_mem he)
    cases hs with
    | scalar hkind => simp [hscalars e he] at hkind
    | reference _ hlookup hs =>
        rw [(Named.lookup_eq_some_iff_mem hnames).mpr he] at hlookup
        cases hlookup
        exact hs.wellFormed
  · obtain ⟨_, ⟨d, hlookup, -⟩, -⟩ := Relation.TransGen.head'_iff.mp hcycle
    obtain ⟨s, hs⟩ := h name (List.mem_map_of_mem (Named.mem_of_lookup hlookup))
    exact not_transGen_of_acc (hs.acc hscalars name (.self name)) hcycle

/-- Things one by one for entries whose keys have texts are things under these texts. -/
theorem exists_keyed {α : Type} {entries : List (Value × Value)} {xs : List α}
    (hkeys : ∀ e ∈ entries, e.1.text?.isSome) (hlength : entries.length = xs.length) :
    ∃ things : List (String × α),
      entries.map (fun e => e.1.text?) = things.map (fun t => some t.1) ∧ things.map Prod.snd = xs := by
  induction entries generalizing xs with
  | nil =>
      obtain rfl := List.length_eq_zero_iff.mp hlength.symm
      exact ⟨[], rfl, rfl⟩
  | cons e entries ih =>
      simp only [List.forall_mem_cons] at hkeys
      obtain ⟨x, xs, rfl⟩ := List.exists_cons_of_length_eq_add_one hlength.symm
      obtain ⟨name, hname⟩ := Option.isSome_iff_exists.mp hkeys.1
      obtain ⟨things, hthings, rfl⟩ := ih hkeys.2 (by simpa using hlength)
      exact ⟨(name, x) :: things, by simp [hname, hthings], rfl⟩

theorem exists_texts {values : List Value} (h : ∀ v ∈ values, ∃ s, v = .str s) :
    ∃ names, Schema.texts? values = some names := by
  induction values with
  | nil => exact ⟨[], rfl⟩
  | cons v values ih =>
      simp only [List.forall_mem_cons] at h
      obtain ⟨s, rfl⟩ := h.1
      obtain ⟨names, hnames⟩ := ih h.2
      exact ⟨s :: names, by simp [Schema.texts?, hnames]⟩

/-- An argument that a combinator accepts is assembled, whatever schemas its parts are, if those of a variant
are objects. -/
theorem exists_assembles {c : Combinator} {argument : Value} {ss : List Schema}
    (haccepts : Accepts c argument) (hlength : (parts c argument).length = ss.length)
    (hobjects : c = .variant → ∀ s ∈ ss, ∃ fields, s = .object fields) :
    ∃ s, Assembles c argument ss s := by
  unfold Accepts at haccepts
  split at haccepts
  · obtain ⟨s, rfl⟩ := List.length_eq_one_iff.mp hlength.symm
    exact ⟨_, .optional _ s⟩
  · obtain ⟨s, rfl⟩ := List.length_eq_one_iff.mp hlength.symm
    exact ⟨_, .nullable _ s⟩
  · obtain ⟨s, rfl⟩ := List.length_eq_one_iff.mp hlength.symm
    exact ⟨_, .array _ s⟩
  · exact ⟨_, .tuple _ ss⟩
  · obtain ⟨fields, hfields, rfl⟩ := exists_keyed haccepts (by simpa [parts] using hlength)
    exact ⟨_, .object hfields⟩
  · obtain ⟨fields, hfields, rfl⟩ := exists_keyed haccepts (by simpa [parts] using hlength)
    exact ⟨_, .partialObject hfields⟩
  · obtain ⟨members, hmembers⟩ := exists_texts haccepts
    obtain rfl := List.length_eq_zero_iff.mp hlength.symm
    exact ⟨_, .items hmembers⟩
  · obtain ⟨members, hmembers⟩ := exists_texts (List.forall_mem_map.mpr haccepts)
    obtain rfl := List.length_eq_zero_iff.mp hlength.symm
    exact ⟨_, .keys hmembers⟩
  · have hss : (ss.map fun s => s.fields?.getD []).map .object = ss := by
      rw [List.map_map]
      refine (List.map_congr_left fun s hs => ?_).trans (List.map_id ss)
      obtain ⟨fields, rfl⟩ := hobjects rfl s hs
      rfl
    obtain ⟨objects, rfl⟩ : ∃ objects, ss = List.map Schema.object objects := ⟨_, hss.symm⟩
    obtain ⟨branches, hbranches, rfl⟩ := exists_keyed haccepts.2 (by simpa [parts] using hlength)
    rw [List.map_map]
    refine ⟨_, .variant ?_ hbranches⟩
    rintro rfl
    exact haccepts.1 (List.map_eq_nil_iff.mp hbranches)
  · cases haccepts

/-! ### Only what is found under the names matters -/

section

variable {others : List (String × Value)}
  (h : ∀ name, definitions.lookup name = others.lookup name)

include h

theorem ObjectShaped.congr {d : Value} (hd : ObjectShaped definitions d) : ObjectShaped others d := by
  induction hd with
  | object argument => exact .object argument
  | partialObject argument => exact .partialObject argument
  | reference hlookup _ ih => exact .reference (h _ ▸ hlookup) ih

theorem WellFormed.congr {d : Value} (hd : WellFormed definitions d) : WellFormed others d := by
  induction hd with
  | scalar hname => exact .scalar hname
  | reference hname =>
      rw [← Named.isSome_lookup, h] at hname
      exact .reference (Named.isSome_lookup.mp hname)
  | apply haccepts _ hshaped ih =>
      exact .apply haccepts ih fun hc d hd => (hshaped hc d hd).congr h

theorem Denotes.congr {d : Value} {s : Schema} (hd : Denotes definitions d s) : Denotes others d s := by
  induction hd with
  | scalar hname => exact .scalar hname
  | reference hname hlookup _ ih => exact .reference hname (h _ ▸ hlookup) ih
  | apply hlength _ hassembles ih => exact .apply hlength ih hassembles

end

/-- The order of the definitions does not matter. -/
theorem Loadable.perm {others : List (String × Value)} (hload : Loadable definitions)
    (hperm : definitions.Perm others) (hnames : (definitions.map Prod.fst).Nodup) : Loadable others := by
  have hlookup := Named.lookup_perm hperm hnames
  have hrefers : Refers others = Refers definitions := by
    funext name other
    simp only [Refers, hlookup]
  refine ⟨fun e he => hload.scalars e (hperm.mem_iff.mpr he), fun e he => ?_, ?_⟩
  · exact (hload.wellFormed e (hperm.mem_iff.mpr he)).congr hlookup
  · rw [hrefers]
    exact hload.acyclic

end Registry
end Wireform
