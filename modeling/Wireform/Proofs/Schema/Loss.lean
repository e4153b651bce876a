import Wireform.Proofs.DateTime.Seconds
import Wireform.Proofs.Schema.Fields

/-!
# What is lost

Two kinds of parts do not give back what they have read. A count of seconds may slip. And in a variant a field
with the name of the discriminant is written from the tag, not from what was read there: most schemas take the
tag for what it is or drop it, but a date takes nothing but a time. Where a part stands in a value is followed
along the schema, one lemma for each combinator.
-/
namespace Wireform.Schema

/-- Schemas of dates, which may be absent or null. They write null and times and nothing else. -/
def ofDate : Schema → Bool
  | scalar kind => kind ∈ [.dateUnixSecs, .dateUnixMillis, .dateIso]
  | optional inner | nullable inner => inner.ofDate
  | _ => false

/-- The schema writes by a branch that declares the discriminant itself, as a date. -/
inductive Clashes : Schema → Value → Prop
  | branch {discriminant tag : String} {branches : List Branch} {fields : List (String × Schema)}
      {date : Schema} {t : Value} : t.field discriminant = .str tag →
      branch? tag branches = some fields → (discriminant, date) ∈ fields → date.ofDate →
      Clashes (.variant discriminant branches) t

/-- The schema writes a count of seconds of a time that slips. -/
inductive Slips : Schema → Value → Prop
  | seconds {t : DateTime} : DateTime.Slips t.millis.natAbs →
      Slips (.scalar .dateUnixSecs) (.datetime t)

/-- `Somewhere P s t`: writing `t` by the schema `s` comes to a scalar or a variant that is given a value with
the property `P`. In a variant the field with the name of the discriminant is left out, since the tag is
written over it. -/
inductive Somewhere (P : Schema → Value → Prop) : Schema → Value → Prop
  | scalar {kind : Scalar} {t : Value} : P (.scalar kind) t → Somewhere P (.scalar kind) t
  | variant {discriminant : String} {branches : List Branch} {t : Value} :
      P (.variant discriminant branches) t → Somewhere P (.variant discriminant branches) t
  | optional {inner : Schema} {t : Value} : t ≠ .null → Somewhere P inner t →
      Somewhere P (.optional inner) t
  | nullable {inner : Schema} {t : Value} : t ≠ .null → Somewhere P inner t →
      Somewhere P (.nullable inner) t
  | item {item : Schema} {values : List Value} {t : Value} : t ∈ values → Somewhere P item t →
      Somewhere P (.array item) (.list values)
  | field {fields : List (String × Schema)} {f : String × Schema} {t : Value} : f ∈ fields →
      Somewhere P f.2 (t.field f.1) → Somewhere P (.object fields) t
  | position {positions : List Schema} {values : List Value} {q : Schema × Value} :
      q ∈ positions.zip values → Somewhere P q.1 q.2 → Somewhere P (.tuple positions) (.tuple values)
  | branch {discriminant tag : String} {branches : List Branch} {fields : List (String × Schema)}
      {f : String × Schema} {t : Value} : t.field discriminant = .str tag →
      branch? tag branches = some fields → f ∈ fields → f.1 ≠ discriminant →
      Somewhere P f.2 (t.field f.1) → Somewhere P (.variant discriminant branches) t

section

variable {P : Schema → Value → Prop} {t : Value}

theorem somewhere_scalar {kind : Scalar} : Somewhere P (.scalar kind) t ↔ P (.scalar kind) t := by
  constructor
  · intro h
    cases h with
    | scalar h => exact h
  · exact .scalar

theorem not_somewhere_oneOf {members : List String} : ¬ Somewhere P (.oneOf members) t := by
  intro h
  cases h

theorem somewhere_optional {inner : Schema} :
    Somewhere P (.optional inner) t ↔ t ≠ .null ∧ Somewhere P inner t := by
  constructor
  · intro h
    cases h with
    | optional hne h => exact ⟨hne, h⟩
  · rintro ⟨hne, h⟩
    exact .optional hne h

theorem somewhere_nullable {inner : Schema} :
    Somewhere P (.nullable inner) t ↔ t ≠ .null ∧ Somewhere P inner t := by
  constructor
  · intro h
    cases h with
    | nullable hne h => exact ⟨hne, h⟩
  · rintro ⟨hne, h⟩
    exact .nullable hne h

theorem somewhere_array {item : Schema} {values : List Value} :
    Somewhere P (.array item) (.list values) ↔ ∃ t ∈ values, Somewhere P item t := by
  constructor
  · intro h
    cases h with
    | item hmem h => exact ⟨_, hmem, h⟩
  · rintro ⟨t, hmem, h⟩
    exact .item hmem h

theorem somewhere_object {fields : List (String × Schema)} :
    Somewhere P (.object fields) t ↔ ∃ f ∈ fields, Somewhere P f.2 (t.field f.1) := by
  constructor
  · intro h
    cases h with
    | field hmem h => exact ⟨_, hmem, h⟩
  · rintro ⟨f, hmem, h⟩
    exact .field hmem h

theorem somewhere_tuple {positions : List Schema} {values : List Value} :
    Somewhere P (.tuple positions) (.tuple values) ↔
      ∃ q ∈ positions.zip values, Somewhere P q.1 q.2 := by
  constructor
  · intro h
    cases h with
    | position hmem h => exact ⟨_, hmem, h⟩
  · rintro ⟨q, hmem, h⟩
    exact .position hmem h

theorem somewhere_variant {discriminant tag : String} {branches : List Branch}
    {fields : List (String × Schema)} (htag : t.field discriminant = .str tag)
    (hfields : branch? tag branches = some fields) :
    Somewhere P (.variant discriminant branches) t ↔ P (.variant discriminant branches) t ∨
      ∃ f ∈ fields, f.1 ≠ discriminant ∧ Somewhere P f.2 (t.field f.1) := by
  constructor
  · intro h
    cases h with
    | variant h => exact .inl h
    | branch htag' hfields' hmem hne h =>
        obtain rfl := Value.str.inj (htag.symm.trans htag')
        obtain rfl := Option.some.inj (hfields.symm.trans hfields')
        exact .inr ⟨_, hmem, hne, h⟩
  · rintro (h | ⟨f, hmem, hne, h⟩)
    · exact .variant h
    · exact .branch htag hfields hmem hne h

end

theorem clashes_variant {discriminant tag : String} {branches : List Branch}
    {fields : List (String × Schema)} {t : Value} (htag : t.field discriminant = .str tag)
    (hfields : branch? tag branches = some fields) :
    Clashes (.variant discriminant branches) t ↔ ∃ f ∈ fields, f.1 = discriminant ∧ f.2.ofDate := by
  constructor
  · rintro ⟨htag', hfields', hmem, hdate⟩
    obtain rfl := Value.str.inj (htag.symm.trans htag')
    obtain rfl := Option.some.inj (hfields.symm.trans hfields')
    exact ⟨_, hmem, rfl, hdate⟩
  · rintro ⟨f, hmem, rfl, hdate⟩
    exact .branch htag hfields hmem hdate

theorem not_clashes_scalar {kind : Scalar} {t : Value} : ¬ Clashes (.scalar kind) t := by
  intro h
  cases h

theorem not_slips_variant {discriminant : String} {branches : List Branch} {t : Value} :
    ¬ Slips (.variant discriminant branches) t := by
  intro h
  cases h

theorem slips_seconds {t : DateTime} :
    Slips (.scalar .dateUnixSecs) (.datetime t) ↔ DateTime.Slips t.millis.natAbs :=
  ⟨fun h => by cases h; assumption, .seconds⟩

end Wireform.Schema
