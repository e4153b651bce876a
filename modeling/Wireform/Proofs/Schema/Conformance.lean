import Wireform.Proofs.Coercion
import Wireform.Proofs.Schema.Built
import Wireform.Proofs.Schema.Fields

/-!
# Conformance

What a schema promises of the values that it reads. Conformance looks at the value that was read and, for the
sake of parts that are kept as they are, at the value that it was read from. Whatever a built schema reads
conforms to it.
-/
namespace Wireform

/-- What a scalar kind promises. -/
def Scalar.Conforms : Scalar → Value → Value → Prop
  | .string, _, t => ∃ s, t = .str s
  | .boolean, _, t => ∃ b, t = .bool b
  | .integer, _, t => ∃ n, t = .int n
  | .float, _, t => ∃ x, t = .float x ∧ x.isNaN = false
  | .dateUnixSecs, _, t | .dateUnixMillis, _, t | .dateIso, _, t => ∃ u, t = .datetime u ∧ u.WholeMillis
  | .raw, v, t => t = v
  | .nothing, _, t => t = .null

theorem Scalar.conforms_of_read? {kind : Scalar} {v t : Value} (h : kind.read? v = some t) :
    kind.Conforms v t := by
  cases kind with
  | string =>
      cases v with
      | str s => exact ⟨s, (Option.some.inj h).symm⟩
      | _ => cases h
  | boolean =>
      cases v with
      | bool b => exact ⟨b, (Option.some.inj h).symm⟩
      | _ => cases h
  | integer =>
      obtain ⟨n, -, rfl⟩ := Option.map_eq_some_iff.mp h
      exact ⟨n, rfl⟩
  | float =>
      obtain ⟨x, hx, rfl⟩ := Option.map_eq_some_iff.mp h
      exact ⟨x, rfl, Value.isNaN_of_toDouble? hx⟩
  | dateUnixSecs =>
      obtain ⟨u, hu, rfl⟩ := Option.map_eq_some_iff.mp h
      obtain ⟨_, hmillis⟩ := Value.exists_ofMillis?_of_seconds hu
      exact ⟨u, rfl, .of_ofMillis? hmillis⟩
  | dateUnixMillis =>
      obtain ⟨u, hu, rfl⟩ := Option.map_eq_some_iff.mp h
      obtain ⟨_, hmillis⟩ := Value.exists_ofMillis?_of_millis hu
      exact ⟨u, rfl, .of_ofMillis? hmillis⟩
  | dateIso =>
      obtain ⟨u, hu, rfl⟩ := Option.map_eq_some_iff.mp h
      exact ⟨u, rfl, Value.wholeMillis_of_iso hu⟩
  | raw => exact (Option.some.inj h).symm
  | nothing => exact (Option.some.inj h).symm

namespace Schema

/-- The keys of a variant's values: the fields of the branch, and the discriminant at the end unless it is
one of them. -/
def variantKeys (discriminant : String) (fields : List (String × Schema)) : List String :=
  if discriminant ∈ fields.map Prod.fst then fields.map Prod.fst
  else fields.map Prod.fst ++ [discriminant]

/-- `Conforms s v t`: the value `t`, read from `v`, has the shape that the schema `s` declares. An object
whose fields may be absent is one of optional fields. -/
inductive Conforms : Schema → Value → Value → Prop
  | scalar {kind : Scalar} {v t : Value} : kind.Conforms v t → Conforms (.scalar kind) v t
  | absent (inner : Schema) (v : Value) : Conforms (.optional inner) v .null
  | present {inner : Schema} {v t : Value} : Conforms inner v t → Conforms (.optional inner) v t
  | null (inner : Schema) (v : Value) : Conforms (.nullable inner) v .null
  | notNull {inner : Schema} {v t : Value} : Conforms inner v t → Conforms (.nullable inner) v t
  | array {item : Schema} {v : Value} {items values : List Value} : v.items? = some items →
      items.length = values.length → (∀ p ∈ items.zip values, Conforms item p.1 p.2) →
      Conforms (.array item) v (.list values)
  | object {fields : List (String × Schema)} {v : Value} {out : List (Value × Value)} :
      out.map Prod.fst = fields.map (fun f => .str f.1) →
      (∀ f ∈ fields, Conforms f.2 (Value.getD f.1 v.entries) (Value.getD f.1 out)) →
      Conforms (.object fields) v (.map out)
  | tuple {positions : List Schema} {v : Value} {items values : List Value} : v.items? = some items →
      values.length = positions.length →
      (∀ (i : Nat) (p : Schema), positions[i]? = some p →
        Conforms p (items.getD i .null) (values.getD i .null)) →
      Conforms (.tuple positions) v (.tuple values)
  | oneOf {members : List String} {v : Value} {s : String} : s ∈ members →
      Conforms (.oneOf members) v (.str s)
  | variant {discriminant tag : String} {branches : List Branch} {fields : List (String × Schema)}
      {v : Value} {out : List (Value × Value)} :
      branch? tag branches = some fields →
      out.map Prod.fst = (variantKeys discriminant fields).map .str →
      Value.getD discriminant out = .str tag →
      (∀ f ∈ fields, f.1 ≠ discriminant →
        Conforms f.2 (Value.getD f.1 v.entries) (Value.getD f.1 out)) →
      Conforms (.variant discriminant branches) v (.map out)

/-- Setting the discriminant among the fields of a branch gives the keys of the variant. -/
theorem keys_put_named (discriminant tag : String) (fields : List (String × Schema))
    (g : String → Value) :
    (Value.put (.str discriminant) (.str tag) (Value.named (fields.map Prod.fst) g)).map Prod.fst =
      (variantKeys discriminant fields).map .str := by
  have hany : ((Value.named (fields.map Prod.fst) g).any
      fun e => Value.sameKey e.1 (.str discriminant)) = true ↔ discriminant ∈ fields.map Prod.fst := by
    simp [Value.named, List.any_eq_true]
  rw [Value.keys_put, Value.keys_named, variantKeys]
  by_cases hmem : discriminant ∈ fields.map Prod.fst
  · rw [if_pos (hany.mpr hmem), if_pos hmem]
  · rw [if_neg fun h => hmem (hany.mp h), if_neg hmem, List.map_append]
    rfl

/-- Whatever a schema reads conforms to it. -/
theorem Built.conforms {s : Schema} (hs : s.Built) {v t : Value} (h : s.decode v = .ok t) :
    s.Conforms v t := by
  induction hs generalizing v t with
  | scalar kind =>
      simp only [decode] at h
      split at h
      · rename_i u hu
        cases h
        exact .scalar (Scalar.conforms_of_read? hu)
      · cases h
  | optional _ ih =>
      rcases orNull_eq_ok h with rfl | h
      · exact .absent _ v
      · exact .present (ih h)
  | nullable _ ih =>
      rcases orNull_eq_ok h with rfl | h
      · exact .null _ v
      · exact .notNull (ih h)
  | array _ ih =>
      obtain ⟨items, values, hitems, hvalues, rfl⟩ := decode_array_eq_ok.mp h
      obtain ⟨hlength, hzip⟩ := List.forall₂_iff_zip.mp (collect_eq_ok.mp hvalues)
      exact .array hitems hlength fun p hp => ih (hzip hp)
  | object hnames _ ih =>
      obtain ⟨out, hout, rfl⟩ := decode_object h
      obtain ⟨g, rfl, hg⟩ := (decodeFields_eq_ok hnames).mp hout
      refine .object (by simp) fun f hf => ?_
      rw [Value.getD_named (List.mem_map_of_mem hf)]
      exact ih f hf (hg f hf)
  | tuple _ ih =>
      obtain ⟨items, values, hitems, hvalues, rfl⟩ := decode_tuple_eq_ok.mp h
      obtain ⟨hlength, hdecode⟩ := decode_of_decodePositions hvalues
      refine .tuple hitems hlength fun i p hp => ?_
      exact ih p (List.mem_of_getElem? hp) (hdecode i p hp)
  | oneOf members =>
      obtain ⟨s, hmem, rfl, rfl⟩ := decode_oneOf_eq_ok.mp h
      exact .oneOf hmem
  | variant _ hnames _ ih =>
      obtain ⟨entries, tag, fields, out, rfl, -, hfields, hout, rfl⟩ := decode_variant_eq_ok.mp h
      have hmem := mem_of_branch? hfields
      obtain ⟨g, rfl, hg⟩ := (decodeFields_eq_ok (hnames _ hmem)).mp hout
      refine .variant hfields (keys_put_named ..) (Value.getD_put_self ..) fun f hf hne => ?_
      rw [Value.getD_put_of_ne hne, Value.getD_named (List.mem_map_of_mem hf)]
      exact ih _ hmem f hf (hg f hf)

end Schema

/-- Whatever the schema of an expression reads conforms to that schema. -/
theorem Expr.decode_conforms {e : Expr} {s : Schema} {v t : Value} (hs : e.schema.1 = .ok s)
    (ht : s.decode v = .ok t) : s.Conforms v t :=
  (built_of_schema hs).conforms ht

/-- A circle with a radius in decimal, read by a variant of one branch. -/
theorem Expr.decode_conforms_circle :
    (Schema.variant "type" [("circle", [("radius", .optional (.scalar .integer))])]).Conforms
      (.map [(.str "radius", .str "7 cm"), (.str "type", .str "circle")])
      (.map [(.str "radius", .int 7), (.str "type", .str "circle")]) :=
  Expr.decode_conforms
    (e := .variant "type" [.value (.str "circle"),
      .schema (.object (.map [(.str "radius", .schema (.optional (.schema (.scalar .integer))))]))])
    rfl rfl

end Wireform
