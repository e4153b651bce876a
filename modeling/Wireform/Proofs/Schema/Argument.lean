import Wireform.Schema.Attempt
import Wireform.Proofs.Schema.Built
import Wireform.Proofs.ValueText

/-!
# Arguments that fit

What a combinator asks of its arguments. It does not look into the schemas among them, apart from their
containers, so it asks the same of expressions and of the schemas that these build.
-/
namespace Wireform

theorem Value.HoldsLong.of_iterate? {v item : Value} {items : List Value} (h : v.iterate? = some items)
    (hitem : item ∈ items) (hlong : item.HoldsLong) : v.HoldsLong := by
  cases v with
  | str s =>
      obtain rfl := Option.some.inj h
      obtain ⟨c, -, rfl⟩ := List.mem_map.mp hitem
      cases hlong
  | bytes bs =>
      obtain rfl := Option.some.inj h
      obtain ⟨b, -, rfl⟩ := List.mem_map.mp hitem
      cases hlong with
      | int hb =>
          have hsmall : (b.toNat : Int).natAbs < Numeral.tooLarge :=
            Numeral.lt_tooLarge (k := 3) (Nat.lt_trans b.toNat_lt (by decide)) (by decide)
          exact absurd hb (Nat.not_le.mpr hsmall)
  | list xs =>
      obtain rfl := Option.some.inj h
      exact .list hitem hlong
  | tuple xs =>
      obtain rfl := Option.some.inj h
      exact .tuple hitem hlong
  | set xs =>
      obtain rfl := Option.some.inj h
      exact .set hitem hlong
  | map entries =>
      obtain rfl := Option.some.inj h
      obtain ⟨e, he, rfl⟩ := List.mem_map.mp hitem
      exact .key he hlong
  | _ => cases h

namespace Argument

variable {α β : Type}

/-! ### What fits -/

def IsSchema : Argument α → Prop
  | schema _ => True
  | _ => False

def IsText (a : Argument α) : Prop :=
  ∃ s, a = value (.str s)

/-- A map in which every key is a text and everything under a key is a schema. -/
def FieldsFit (a : Argument α) : Prop :=
  ∃ entries, a.entries? = some entries ∧ ∀ e ∈ entries, e.1.isText = true ∧ e.2.IsSchema

/-- Something with items that is no text, and all of its items are texts. -/
def MembersFit (a : Argument α) : Prop :=
  ¬ a.IsText ∧ ∃ items, a.iterate? = some items ∧ ∀ item ∈ items, item.IsText

/-- Two items, a text and a schema of an object. -/
def IsPair (container : α → Container) (a : Argument α) : Prop :=
  ∃ tag s, a.iterate? = some [value (.str tag), schema s] ∧ container s = .object

def PairsFit (container : α → Container) (a : Argument α) : Prop :=
  ∃ items, a.iterate? = some items ∧ items ≠ [] ∧ ∀ item ∈ items, item.IsPair container

/-- Tags and objects in turn. -/
def alternating (pairs : List (α × α)) : List α :=
  pairs.flatMap fun pair => [pair.1, pair.2]

/-- Arguments that are texts and schemas of objects in turn, and not none at all. -/
def AlternatingFit (container : α → Container) (arguments : List (Argument α)) : Prop :=
  ∃ pairs, arguments = alternating pairs ∧ pairs ≠ [] ∧
    ∀ pair ∈ pairs, (tuple [pair.1, pair.2]).IsPair container

theorem alternating_injective {pairs others : List (α × α)}
    (h : alternating pairs = alternating others) : pairs = others := by
  induction pairs generalizing others with
  | nil =>
      cases others with
      | nil => rfl
      | cons other others => cases h
  | cons pair pairs ih =>
      cases others with
      | nil => cases h
      | cons other others =>
          obtain ⟨hfirst, hrest⟩ := List.cons.inj h
          obtain ⟨hsecond, hrest⟩ := List.cons.inj hrest
          rw [Prod.ext hfirst hsecond, ih hrest]

theorem map_eq_alternating {f : α → β} {as : List α} {pairs : List (β × β)}
    (h : as.map f = alternating pairs) :
    ∃ others, as = alternating others ∧ others.map (Prod.map f f) = pairs := by
  induction pairs generalizing as with
  | nil =>
      obtain rfl := List.map_eq_nil_iff.mp h
      exact ⟨[], rfl, rfl⟩
  | cons pair pairs ih =>
      obtain ⟨a, rest, rfl, ha, hrest⟩ := List.map_eq_cons_iff.mp h
      obtain ⟨b, rest, rfl, hb, hrest⟩ := List.map_eq_cons_iff.mp hrest
      obtain ⟨others, rfl, rfl⟩ := ih hrest
      exact ⟨(a, b) :: others, rfl, by rw [List.map_cons, Prod.map_apply, ha, hb]⟩

theorem map_alternating (f : α → β) (pairs : List (α × α)) :
    (alternating pairs).map f = alternating (pairs.map (Prod.map f f)) := by
  simp [alternating, List.map_flatMap, List.flatMap_map]

/-! ### Plain values -/

mutual

/-- The plain values in an argument, the keys of maps among them. -/
def values : Argument α → List Value
  | schema _ => []
  | value v => [v]
  | list items | tuple items => valuesOfItems items
  | map entries => valuesOfEntries entries

def valuesOfItems : List (Argument α) → List Value
  | [] => []
  | item :: items => values item ++ valuesOfItems items

def valuesOfEntries : List (Value × Argument α) → List Value
  | [] => []
  | (key, a) :: entries => key :: values a ++ valuesOfEntries entries

end

theorem mem_valuesOfItems {v : Value} {items : List (Argument α)} :
    v ∈ valuesOfItems items ↔ ∃ item ∈ items, v ∈ item.values := by
  induction items with
  | nil => simp [valuesOfItems]
  | cons item items ih => simp [valuesOfItems, ih]

theorem mem_valuesOfEntries {v : Value} {entries : List (Value × Argument α)} :
    v ∈ valuesOfEntries entries ↔ ∃ e ∈ entries, v = e.1 ∨ v ∈ e.2.values := by
  induction entries with
  | nil => simp [valuesOfEntries]
  | cons e entries ih => simp [valuesOfEntries, ih, or_assoc]

/-- None of the plain values has an integer that is too long to be shown. -/
def Short (a : Argument α) : Prop :=
  ∀ v ∈ a.values, ¬ v.HoldsLong

theorem short_value {v : Value} : (value v : Argument α).Short ↔ ¬ v.HoldsLong :=
  List.forall_mem_singleton

theorem short_list {items : List (Argument α)} : (list items).Short ↔ ∀ item ∈ items, item.Short := by
  simp only [Short, values, mem_valuesOfItems, forall_exists_index, and_imp]
  exact ⟨fun h item hitem v hv => h v item hitem hv, fun h v item hitem hv => h item hitem v hv⟩

theorem short_map {entries : List (Value × Argument α)} :
    (map entries).Short ↔ ∀ e ∈ entries, ¬ e.1.HoldsLong ∧ e.2.Short := by
  simp only [Short, values, mem_valuesOfEntries, forall_exists_index, and_imp]
  constructor
  · exact fun h e he => ⟨h e.1 e he (.inl rfl), fun v hv => h v e he (.inr hv)⟩
  · rintro h v e he (rfl | hv)
    · exact (h e he).1
    · exact (h e he).2 v hv

theorem Short.key {entries : List (Value × Argument α)} (h : (map entries).Short) :
    ∀ e ∈ Value.distinct entries, ¬ e.1.HoldsLong := fun e he =>
  (Value.forall_distinct (P := fun v => ¬ v.HoldsLong) (Q := Short) (short_map.mp h) e he).1

/-- What can be shown has items that can be shown. -/
theorem Short.of_iterate? {a : Argument α} {items : List (Argument α)} (h : a.Short)
    (hitems : a.iterate? = some items) : ∀ item ∈ items, item.Short := by
  cases a with
  | schema => cases hitems
  | value v =>
      obtain ⟨values, hvalues, rfl⟩ := Option.map_eq_some_iff.mp hitems
      intro item hitem
      obtain ⟨w, hw, rfl⟩ := List.mem_map.mp hitem
      exact short_value.mpr fun hlong => short_value.mp h (.of_iterate? hvalues hw hlong)
  | list | tuple =>
      cases hitems
      exact short_list.mp h
  | map =>
      cases hitems
      intro item hitem
      obtain ⟨e, he, rfl⟩ := List.mem_map.mp hitem
      exact short_value.mpr (h.key e he)

theorem Short.of_entries? {a : Argument α} {entries : List (Value × Argument α)} (h : a.Short)
    (hentries : a.entries? = some entries) : ∀ e ∈ entries, ¬ e.1.HoldsLong := by
  cases a with
  | value v =>
      cases v with
      | map entries =>
          cases hentries
          intro e he
          obtain ⟨f, hf, rfl⟩ := List.mem_map.mp he
          exact fun hlong => short_value.mp h (.key hf hlong)
      | _ => cases hentries
  | map =>
      cases hentries
      exact h.key
  | _ => cases hentries

theorem mapM_ne_none {f : α → Option β} {as : List α} (h : ∀ a ∈ as, f a ≠ none) : as.mapM f ≠ none := by
  induction as with
  | nil => exact Option.some_ne_none []
  | cons a as ih =>
      rw [List.forall_mem_cons] at h
      obtain ⟨b, hb⟩ := Option.ne_none_iff_exists'.mp h.1
      obtain ⟨bs, hbs⟩ := Option.ne_none_iff_exists'.mp (ih h.2)
      rw [List.mapM_cons, hb, hbs]
      exact Option.some_ne_none _

mutual

/-- An operand has a written form if its plain values have one. -/
theorem written?_ne_none : ∀ (o : Operand), o.Short → o.written? ≠ none
  | .schema _, _ => Option.some_ne_none _
  | .value v, h => fun hnone => short_value.mp h ((Value.written?_eq_none v).mp hnone)
  | .list items, h => by
      rw [written?, Ne, Option.map_eq_none_iff]
      exact writtenItems?_ne_none items (short_list.mp h)
  | .tuple items, h => by
      rw [written?, Ne, Option.map_eq_none_iff]
      exact writtenItems?_ne_none items (short_list.mp h)
  | .map entries, h => by
      rw [written?, Ne, Option.map_eq_none_iff]
      apply mapM_ne_none
      intro e he
      obtain ⟨hkey, hpart⟩ := Value.forall_distinct (P := fun v => v.written? ≠ none) (Q := fun t => t ≠ none)
        (writtenParts_ne_none entries (short_map.mp h)) e he
      obtain ⟨key, hkey⟩ := Option.ne_none_iff_exists'.mp hkey
      obtain ⟨part, hpart⟩ := Option.ne_none_iff_exists'.mp hpart
      rw [entryText?, hkey, hpart]
      exact Option.some_ne_none _

theorem writtenItems?_ne_none : ∀ (items : List Operand), (∀ item ∈ items, item.Short) →
    writtenItems? items ≠ none
  | [], _ => Option.some_ne_none []
  | item :: items, h => by
      rw [List.forall_mem_cons] at h
      obtain ⟨part, hpart⟩ := Option.ne_none_iff_exists'.mp (written?_ne_none item h.1)
      obtain ⟨parts, hparts⟩ := Option.ne_none_iff_exists'.mp (writtenItems?_ne_none items h.2)
      rw [writtenItems?, hpart, hparts]
      exact Option.some_ne_none _

theorem writtenParts_ne_none : ∀ (entries : List (Value × Operand)),
    (∀ e ∈ entries, ¬ e.1.HoldsLong ∧ e.2.Short) →
    ∀ e ∈ writtenParts entries, e.1.written? ≠ none ∧ e.2 ≠ none
  | [], _ => List.forall_mem_nil _
  | (key, o) :: entries, h => by
      rw [List.forall_mem_cons] at h
      refine List.forall_mem_cons.mpr ⟨⟨?_, written?_ne_none o h.1.2⟩, writtenParts_ne_none entries h.2⟩
      exact fun hnone => h.1.1 ((Value.written?_eq_none key).mp hnone)

end

/-! ### What combinators see -/

mutual

/-- An argument with nothing left of its schemas but what is seen of them. -/
def seen (f : α → β) : Argument α → Argument β
  | schema a => schema (f a)
  | value v => value v
  | list items => list (seenItems f items)
  | tuple items => tuple (seenItems f items)
  | map entries => map (seenEntries f entries)

def seenItems (f : α → β) : List (Argument α) → List (Argument β)
  | [] => []
  | item :: items => seen f item :: seenItems f items

def seenEntries (f : α → β) : List (Value × Argument α) → List (Value × Argument β)
  | [] => []
  | (key, a) :: entries => (key, seen f a) :: seenEntries f entries

end

variable (f : α → β)

theorem seenItems_eq (items : List (Argument α)) : seenItems f items = items.map (seen f) := by
  induction items with
  | nil => rfl
  | cons item items ih => rw [seenItems, ih, List.map_cons]

theorem seenEntries_eq (entries : List (Value × Argument α)) :
    seenEntries f entries = entries.map fun e => (e.1, e.2.seen f) := by
  induction entries with
  | nil => rfl
  | cons e entries ih => rw [seenEntries, ih, List.map_cons]

theorem iterate?_seen (a : Argument α) : (a.seen f).iterate? = a.iterate?.map (List.map (seen f)) := by
  cases a with
  | schema => rfl
  | value v =>
      cases h : v.iterate? with
      | none => simp [seen, iterate?, h]
      | some values => simp [seen, iterate?, h, Function.comp_def]
  | list items | tuple items => simp [seen, iterate?, seenItems_eq]
  | map entries =>
      rw [seen, seenEntries_eq, iterate?, iterate?, Value.distinct_map, Option.map_some, List.map_map,
        List.map_map]
      rfl

theorem entries?_seen (a : Argument α) :
    (a.seen f).entries? = a.entries?.map (List.map fun e => (e.1, e.2.seen f)) := by
  cases a with
  | value v =>
      cases v with
      | map entries => simp [seen, entries?, Function.comp_def]
      | _ => rfl
  | map entries => rw [seen, seenEntries_eq, entries?, entries?, Value.distinct_map, Option.map_some]
  | _ => rfl

mutual

theorem values_seen : ∀ (a : Argument α), (a.seen f).values = a.values
  | .schema _ | .value _ => rfl
  | .list items | .tuple items => values_seenItems items
  | .map entries => values_seenEntries entries

theorem values_seenItems : ∀ (items : List (Argument α)),
    valuesOfItems (seenItems f items) = valuesOfItems items
  | [] => rfl
  | item :: items => by
      rw [seenItems, valuesOfItems, valuesOfItems, values_seen item, values_seenItems items]

theorem values_seenEntries : ∀ (entries : List (Value × Argument α)),
    valuesOfEntries (seenEntries f entries) = valuesOfEntries entries
  | [] => rfl
  | (key, a) :: entries => by
      rw [seenEntries, valuesOfEntries, valuesOfEntries, values_seen a, values_seenEntries entries]

end

theorem short_seen {a : Argument α} : (a.seen f).Short ↔ a.Short := by
  rw [Short, Short, values_seen]

theorem seen_eq_value {a : Argument α} {v : Value} : a.seen f = value v ↔ a = value v := by
  cases a <;> simp [seen]

theorem seen_eq_schema {a : Argument α} {b : β} : a.seen f = schema b ↔ ∃ s, a = schema s ∧ f s = b := by
  cases a <;> simp [seen]

theorem isSchema_seen (a : Argument α) : (a.seen f).IsSchema ↔ a.IsSchema := by
  cases a <;> rfl

theorem isText_seen (a : Argument α) : (a.seen f).IsText ↔ a.IsText :=
  exists_congr fun _ => seen_eq_value f

theorem fieldsFit_seen {a : Argument α} : (a.seen f).FieldsFit ↔ a.FieldsFit := by
  rw [FieldsFit, FieldsFit, entries?_seen]
  simp [isSchema_seen]

theorem membersFit_seen {a : Argument α} : (a.seen f).MembersFit ↔ a.MembersFit := by
  rw [MembersFit, MembersFit, iterate?_seen, isText_seen]
  simp [isText_seen]

variable (container : α → Container)

theorem isPair_seen (a : Argument α) : (a.seen container).IsPair id ↔ a.IsPair container := by
  rw [IsPair, IsPair, iterate?_seen]
  constructor
  · rintro ⟨tag, c, hsome, hobject⟩
    obtain ⟨items, hitems, hseen⟩ := Option.map_eq_some_iff.mp hsome
    obtain ⟨x, rest, rfl, htag, hrest⟩ := List.map_eq_cons_iff.mp hseen
    obtain ⟨y, rest, rfl, hschema, hrest⟩ := List.map_eq_cons_iff.mp hrest
    obtain rfl := List.map_eq_nil_iff.mp hrest
    obtain rfl := (seen_eq_value container).mp htag
    obtain ⟨s, rfl, rfl⟩ := (seen_eq_schema container).mp hschema
    exact ⟨tag, s, hitems, hobject⟩
  · rintro ⟨tag, s, hitems, hobject⟩
    exact ⟨tag, container s, by rw [hitems]; rfl, hobject⟩

theorem pairsFit_seen {a : Argument α} : (a.seen container).PairsFit id ↔ a.PairsFit container := by
  rw [PairsFit, PairsFit, iterate?_seen]
  simp [isPair_seen]

theorem alternatingFit_seen {arguments : List (Argument α)} :
    AlternatingFit id (arguments.map (seen container)) ↔ AlternatingFit container arguments := by
  have hpair (pair : Argument α × Argument α) :
      (tuple [pair.1.seen container, pair.2.seen container]).IsPair id ↔
        (tuple [pair.1, pair.2]).IsPair container :=
    isPair_seen container (tuple [pair.1, pair.2])
  constructor
  · rintro ⟨pairs, halternating, hne, hpairs⟩
    obtain ⟨others, rfl, rfl⟩ := map_eq_alternating halternating
    exact ⟨others, rfl, mt List.map_eq_nil_iff.mpr hne,
      fun pair h => (hpair pair).mp (hpairs _ (List.mem_map_of_mem h))⟩
  · rintro ⟨pairs, rfl, hne, hpairs⟩
    refine ⟨_, map_alternating _ pairs, mt List.map_eq_nil_iff.mp hne, ?_⟩
    intro pair h
    obtain ⟨other, hother, rfl⟩ := List.mem_map.mp h
    exact (hpair other).mpr (hpairs other hother)

end Argument
end Wireform
