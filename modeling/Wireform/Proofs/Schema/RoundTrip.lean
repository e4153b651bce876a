import Wireform.Proofs.Schema.Recovery

/-!
# Round trips

What a schema reads it can write, and what it writes it reads as the same value again, if nothing in it can be
lost: no count of seconds, and no field of a branch that has the name of the discriminant. Such schemas are
called reversible.
-/
namespace Wireform

namespace Schema

/-- `Part p s`: the schema `p` occurs in the schema `s`, at any depth. -/
inductive Part (p : Schema) : Schema → Prop
  | self : Part p p
  | optional {inner : Schema} : Part p inner → Part p (.optional inner)
  | nullable {inner : Schema} : Part p inner → Part p (.nullable inner)
  | array {item : Schema} : Part p item → Part p (.array item)
  | field {fields : List (String × Schema)} {f : String × Schema} : f ∈ fields → Part p f.2 →
      Part p (.object fields)
  | position {positions : List Schema} {q : Schema} : q ∈ positions → Part p q →
      Part p (.tuple positions)
  | branch {discriminant : String} {branches : List Branch} {b : Branch} {f : String × Schema} :
      b ∈ branches → f ∈ b.2 → Part p f.2 → Part p (.variant discriminant branches)

/-- No part is a count of seconds, and no branch of a variant declares a field with the name of the
discriminant. -/
structure Reversible (s : Schema) : Prop where
  noSeconds : ¬ Part (.scalar .dateUnixSecs) s
  noClash : ∀ {discriminant : String} {branches : List Branch},
    Part (.variant discriminant branches) s → ∀ b ∈ branches, discriminant ∉ b.2.map Prod.fst

/-- The value `t` is written, and what is written is read as `t`. -/
def Returns (s : Schema) (t : Value) : Prop :=
  ∃ w, s.encode t = .ok w ∧ s.decode w = .ok t

/-- What is somewhere in a value belongs to a part of the schema. -/
theorem Somewhere.exists_part {P : Schema → Value → Prop} {s : Schema} {t : Value}
    (h : s.Somewhere P t) : ∃ p u, Part p s ∧ P p u := by
  induction h with
  | @scalar kind t h => exact ⟨.scalar kind, t, .self, h⟩
  | @variant discriminant branches t h => exact ⟨.variant discriminant branches, t, .self, h⟩
  | optional _ _ ih =>
      obtain ⟨p, u, hpart, h⟩ := ih
      exact ⟨p, u, .optional hpart, h⟩
  | nullable _ _ ih =>
      obtain ⟨p, u, hpart, h⟩ := ih
      exact ⟨p, u, .nullable hpart, h⟩
  | item _ _ ih =>
      obtain ⟨p, u, hpart, h⟩ := ih
      exact ⟨p, u, .array hpart, h⟩
  | field hf _ ih =>
      obtain ⟨p, u, hpart, h⟩ := ih
      exact ⟨p, u, .field hf hpart, h⟩
  | position hq _ ih =>
      obtain ⟨p, u, hpart, h⟩ := ih
      exact ⟨p, u, .position (List.of_mem_zip hq).1 hpart, h⟩
  | branch _ hfields hf _ _ ih =>
      obtain ⟨p, u, hpart, h⟩ := ih
      exact ⟨p, u, .branch (mem_of_branch? hfields) hf hpart, h⟩

/-- Whatever a reversible schema reads is written, and read again as it was. -/
theorem Built.returns {s : Schema} (hs : s.Built) (hr : s.Reversible) {v t : Value}
    (h : s.decode v = .ok t) : s.Returns t := by
  have hclash : ¬ s.Somewhere Clashes t := by
    intro hsomewhere
    obtain ⟨p, u, hpart, hclash⟩ := hsomewhere.exists_part
    cases hclash with
    | branch _ hfields hmem _ =>
        exact hr.noClash hpart _ (mem_of_branch? hfields) (List.mem_map_of_mem hmem)
  have hslip : ¬ s.Somewhere Slips t := by
    intro hsomewhere
    obtain ⟨p, u, hpart, hslip⟩ := hsomewhere.exists_part
    cases hslip
    exact hr.noSeconds hpart
  obtain ⟨w, hw, t', ht', hsame⟩ := (hs.recovers h).succeeds hclash
  exact ⟨w, hw, hsame.mpr hslip ▸ ht'⟩

end Schema

/-- Whatever the schema of an expression reads is written without a fault, and read again as it was. -/
theorem Expr.encode_decode {e : Expr} {s : Schema} {v t : Value} (hs : e.schema.1 = .ok s)
    (hr : s.Reversible) (ht : s.decode v = .ok t) :
    ∃ w, s.encode t = .ok w ∧ s.decode w = .ok t :=
  (built_of_schema hs).returns hr ht

/-- The schema of circles with a radius. -/
def circle : Schema :=
  .variant "type" [("circle", [("radius", .optional (.scalar .integer))])]

theorem reversible_circle : circle.Reversible := by
  have hparts {p : Schema} (h : p.Part circle) :
      p = circle ∨ p = .optional (.scalar .integer) ∨ p = .scalar .integer := by
    unfold circle at h
    cases h with
    | self => exact .inl rfl
    | branch hb hf hp =>
        obtain rfl := List.mem_singleton.mp hb
        obtain rfl := List.mem_singleton.mp hf
        cases hp with
        | self => exact .inr (.inl rfl)
        | optional hp =>
            cases hp
            exact .inr (.inr rfl)
  refine ⟨fun h => ?_, fun h => ?_⟩
  · rcases hparts h with h | h | h <;> cases h
  · rcases hparts h with h | h | h <;> cases h
    simp

/-- A circle with a radius in decimal. -/
theorem Expr.encode_decode_circle :
    ∃ w, circle.encode (.map [(.str "radius", .int 7), (.str "type", .str "circle")]) = .ok w ∧
      circle.decode w = .ok (.map [(.str "radius", .int 7), (.str "type", .str "circle")]) :=
  Expr.encode_decode
    (e := .variant "type" [.value (.str "circle"),
      .schema (.object (.map [(.str "radius", .schema (.optional (.schema (.scalar .integer))))]))])
    (v := .map [(.str "radius", .str "7 cm"), (.str "type", .str "circle")]) rfl reversible_circle rfl

end Wireform
