import Wireform.Schema.Dispatch
import Wireform.Proofs.Json.Reader
import Wireform.Proofs.Schema.Built
import Wireform.Proofs.Schema.Fields

/-!
# The branch of a variant

A variant reads and writes a map by the first of its branches whose tag the map has. Looking the tag up in a
table that keeps the first branch of a tag is the same, and so is leaving out the branches whose tag occurred
earlier. A variant with repeated tags is built all the same, and one warning lists these tags.
-/
namespace Wireform.Schema

variable (discriminant : String) (branches : List Branch)

/-! ### The table -/

theorem lookup_map_object (tag : String) :
    (branches.map fun b => (b.1, Schema.object b.2)).lookup tag = (branch? tag branches).map .object := by
  induction branches with
  | nil => rfl
  | cons b branches ih =>
      rw [List.map_cons, List.lookup_cons, branch?_cons, ih]
      by_cases heq : tag = b.1
      · simp [heq]
      · have hne : (tag == b.1) = false := beq_eq_false_iff_ne.mpr heq
        rw [hne, if_neg (Ne.symm heq)]

/-- The table has the first branch of every tag. -/
theorem lookup_table (tag : String) :
    (table branches).lookup tag = (branch? tag branches).map .object := by
  have hfold : table branches = (branches.map fun b => (b.1, Schema.object b.2)).foldl
      (fun found t => Named.setDefault t.1 t.2 found) [] := by
    rw [table, List.foldl_map]
  rw [hfold, Named.lookup_foldl_setDefault, List.lookup_nil, Option.none_or, lookup_map_object]

theorem map_setKey (tag : String) (fields : List (String × Schema)) (entries : List (Value × Value)) :
    ((object fields).decode (.map entries)).map (setKey discriminant (.str tag)) =
      (decodeFields fields entries).map fun out => .map (Value.put (.str discriminant) (.str tag) out) := by
  rw [decode]
  cases decodeFields fields entries <;> rfl

theorem map_setKey_encode (tag : String) (fields : List (String × Schema)) (v : Value) :
    ((object fields).encode v).map (setKey discriminant (.str tag)) =
      (encodeFields fields v).map fun out => .map (Value.put (.str discriminant) (.str tag) out) := by
  rw [encode]
  cases encodeFields fields v <;> rfl

/-- Reading by the table is reading by the first branch. -/
theorem decodeTagged_eq (v : Value) :
    decodeTagged discriminant branches v = (variant discriminant branches).decode v := by
  cases v with
  | map entries =>
      rw [decodeTagged, decode]
      cases Value.getD discriminant entries with
      | str tag =>
          simp only [select?, lookup_table, decodeBranch_eq]
          cases branch? tag branches with
          | none => rfl
          | some fields => exact map_setKey discriminant tag fields entries
      | _ => rfl
  | _ => rfl

theorem encodeTagged_eq (v : Value) :
    encodeTagged discriminant branches v = (variant discriminant branches).encode v := by
  cases v with
  | map entries =>
      rw [encodeTagged, encode]
      cases Value.getD discriminant entries with
      | str tag =>
          simp only [select?, lookup_table, encodeBranch_eq]
          cases branch? tag branches with
          | none => rfl
          | some fields => exact map_setKey_encode discriminant tag fields (.map entries)
      | _ => rfl
  | _ => rfl

/-! ### The first match -/

/-- The label names the discriminant, and then it lists the tags in order: as a JSON list, in which a reader finds
just these texts. -/
def NamesTags (tags : List String) (label : String) : Prop :=
  ∃ list, label = discriminant ++ " in " ++ list ∧ Json.read? list = some (.list (tags.map .str))

theorem namesTags_tagsLabel (tags : List String) : NamesTags discriminant tags (tagsLabel discriminant tags) :=
  ⟨Text.asciiJsonList tags, rfl, Json.read?_asciiJsonList tags⟩

/-- A map that fits no branch: it is neither read nor written, and the error names all tags in order. -/
def Unmatched (entries : List (Value × Value)) : Prop :=
  ∃ label, NamesTags discriminant (branches.map Prod.fst) label ∧
    (variant discriminant branches).decode (.map entries) = .error ⟨label, .map entries⟩ ∧
    (variant discriminant branches).encode (.map entries) = .error (.mismatch ⟨label, .map entries⟩)

/-- A map that fits a branch: it is read and written by the object of the branch, and the tag is set. -/
structure Matched (entries : List (Value × Value)) (tag : String) (fields : List (String × Schema)) : Prop where
  decode : (variant discriminant branches).decode (.map entries) =
    ((object fields).decode (.map entries)).map (setKey discriminant (.str tag))
  encode : (variant discriminant branches).encode (.map entries) =
    ((object fields).encode (.map entries)).map (setKey discriminant (.str tag))

/-- What a variant does with a map, told by its branches in order. -/
structure Dispatches (entries : List (Value × Value)) : Prop where
  /-- The tag is missing, is no text, or is that of no branch. -/
  unmatched : (∀ tag, Value.getD discriminant entries = .str tag → tag ∉ branches.map Prod.fst) →
    Unmatched discriminant branches entries
  /-- The tag is that of a branch, and of none before it. -/
  matched : ∀ tag before fields after, Value.getD discriminant entries = .str tag →
    branches = before ++ (tag, fields) :: after → tag ∉ before.map Prod.fst →
    Matched discriminant branches entries tag fields

theorem branch?_eq_none {tag : String} {branches : List Branch} :
    branch? tag branches = none ↔ tag ∉ branches.map Prod.fst := by
  rw [← Option.not_isSome_iff_eq_none, branch?, Named.isSome_lookup]

variable {entries : List (Value × Value)} {tag : String} {fields : List (String × Schema)}

theorem unmatched_of_branch?
    (h : ∀ tag, Value.getD discriminant entries = .str tag → branch? tag branches = none) :
    Unmatched discriminant branches entries := by
  refine ⟨_, namesTags_tagsLabel discriminant (branches.map Prod.fst), ?_, ?_⟩
  · rw [decode]
    cases htag : Value.getD discriminant entries with
    | str tag => simp only [decodeBranch_eq, h tag htag, Option.map_none]
    | _ => rfl
  · rw [encode]
    cases htag : Value.getD discriminant entries with
    | str tag => simp only [encodeBranch_eq, h tag htag, Option.map_none]
    | _ => rfl

theorem matched_of_branch? (htag : Value.getD discriminant entries = .str tag)
    (h : branch? tag branches = some fields) : Matched discriminant branches entries tag fields := by
  constructor
  · rw [map_setKey, decode]
    simp only [htag, decodeBranch_eq, h, Option.map_some]
  · rw [map_setKey_encode, encode_variant_of_tag htag h]

theorem dispatches (entries : List (Value × Value)) : Dispatches discriminant branches entries := by
  constructor
  · intro hnone
    exact unmatched_of_branch? discriminant branches fun tag htag => branch?_eq_none.mpr (hnone tag htag)
  · rintro tag before fields after htag rfl hbefore
    have hfirst : branch? tag (before ++ (tag, fields) :: after) = some fields := by
      have hnone : before.lookup tag = none := branch?_eq_none.mpr hbefore
      rw [branch?, List.lookup_append, List.lookup_cons_self, hnone, Option.none_or]
    exact matched_of_branch? discriminant _ htag hfirst

/-- Two variants that do the same with a map, but for the tags that they list if it fits no branch. -/
def Alike (others : List Branch) (entries : List (Value × Value)) : Prop :=
  ((variant discriminant branches).decode (.map entries) =
        (variant discriminant others).decode (.map entries) ∧
      (variant discriminant branches).encode (.map entries) =
        (variant discriminant others).encode (.map entries)) ∨
    Unmatched discriminant branches entries ∧ Unmatched discriminant others entries

/-- The branches whose tag occurred earlier do nothing. -/
theorem alike_unseen (entries : List (Value × Value)) :
    Alike discriminant branches (Named.unseen [] branches) entries := by
  have hsame (tag : String) : branch? tag (Named.unseen [] branches) = branch? tag branches :=
    Named.lookup_unseen (by simp) branches
  by_cases h : ∃ tag fields, Value.getD discriminant entries = .str tag ∧ branch? tag branches = some fields
  · obtain ⟨tag, fields, htag, hfields⟩ := h
    have hall := matched_of_branch? discriminant branches htag hfields
    have hfirst := matched_of_branch? discriminant (Named.unseen [] branches) htag ((hsame tag).trans hfields)
    exact .inl ⟨hall.decode.trans hfirst.decode.symm, hall.encode.trans hfirst.encode.symm⟩
  · have hnone : ∀ tag, Value.getD discriminant entries = .str tag → branch? tag branches = none := by
      intro tag htag
      cases hfields : branch? tag branches with
      | none => rfl
      | some fields => exact absurd ⟨tag, fields, htag, hfields⟩ h
    refine .inr ⟨unmatched_of_branch? discriminant branches hnone, ?_⟩
    exact unmatched_of_branch? discriminant _ fun tag htag => (hsame tag).trans (hnone tag htag)

/-! ### Repeated tags -/

theorem nodup_eraseDups (names : List String) : names.eraseDups.Nodup := by
  match names with
  | [] => exact List.nodup_nil
  | name :: names =>
      rw [List.eraseDups_cons, List.nodup_cons, List.mem_eraseDups, List.mem_filter]
      exact ⟨by simp, nodup_eraseDups _⟩
termination_by names.length
decreasing_by exact Nat.lt_succ_of_le (List.length_filter_le ..)

theorem mem_repeatedTags {tags : List String} {tag : String} :
    tag ∈ repeatedTags tags ↔ 1 < tags.count tag := by
  rw [repeatedTags, List.mem_mergeSort, List.mem_eraseDups, List.mem_filter, decide_eq_true_iff]
  exact and_iff_right_of_imp fun h => List.count_pos_iff.mp (Nat.lt_trans Nat.zero_lt_one h)

theorem pairwise_repeatedTags (tags : List String) : (repeatedTags tags).Pairwise (· < ·) := by
  have hle : (repeatedTags tags).Pairwise fun a b => decide (a ≤ b) := List.pairwise_mergeSort
    (fun a b c hab hbc => by simpa using String.le_trans (by simpa using hab) (by simpa using hbc))
    (fun a b => by simpa using String.le_total a b)
    (tags.filter fun tag => 1 < tags.count tag).eraseDups
  have hnodup := (List.mergeSort_perm (tags.filter fun tag => 1 < tags.count tag).eraseDups
    (fun a b : String => decide (a ≤ b))).nodup_iff.mpr (nodup_eraseDups _)
  refine (hle.and hnodup).imp fun {a b} h => ?_
  exact Std.lt_of_le_of_ne (of_decide_eq_true h.1) h.2

/-- The warning that is logged when a variant with repeated tags is built: each of them is quoted. -/
def repeatedRecord (repeated : List String) : Log.Record :=
  ⟨Log.warning, Log.unionsLogger,
    "variant declares duplicate tags [" ++ ", ".intercalate (repeated.map Text.quote) ++
      "]; first declaration wins", none⟩

theorem tagWarnings_eq (tags : List String) :
    tagWarnings tags = if repeatedTags tags = [] then [] else [repeatedRecord (repeatedTags tags)] := by
  have htext (items : List String) : "variant declares duplicate tags " ++ Text.quoteList items ++
      "; first declaration wins" = "variant declares duplicate tags [" ++
      ", ".intercalate (items.map Text.quote) ++ "]; first declaration wins" := by
    rw [← String.toList_inj]
    simp [Text.quoteList]
  simp only [tagWarnings, repeatedRecord, List.isEmpty_iff, htext]

/-- A tag and an object schema, as they are given to the combinator. -/
def pairOf (b : Branch) : Operand :=
  .tuple [.value (.str b.1), .schema (.object b.2)]

theorem yields_buildVariant {branches : List Branch} (hne : branches ≠ []) (log : List Log.Record) :
    Yields (buildVariant discriminant (branches.map pairOf)) log (variant discriminant branches)
      (log ++ tagWarnings (branches.map Prod.fst)) := by
  have hvariant : variantOf discriminant branches = .ok (variant discriminant branches) := by
    rw [variantOf, if_neg (by simpa using hne)]
  simp only [buildVariant, yields_bind, yields_ofExcept, yields_modify, yields_pure, branchesOf_eq_ok]
  exact ⟨branches, log, ⟨List.map_map, rfl⟩, _, log, ⟨hvariant, rfl⟩, (), _, rfl, rfl, rfl⟩

/-- A variant of any branches, repeated or not, reads and writes a map by the first branch that has its tag, and
then sets the tag. If no branch has it, the error names the discriminant and lists all tags in order. Leaving out
branches whose tag occurred earlier changes that list only. Building the variant warns if and only if a tag is
repeated, and lists each repeated tag once, in order. -/
theorem variant_first_match {branches : List Branch} (hne : branches ≠ []) :
    (∀ v, decodeTagged discriminant branches v = (variant discriminant branches).decode v ∧
      encodeTagged discriminant branches v = (variant discriminant branches).encode v) ∧
    (∀ entries, Dispatches discriminant branches entries) ∧
    (∀ entries, Alike discriminant branches (Named.unseen [] branches) entries) ∧
    ∃ repeated : List String, repeated.Pairwise (· < ·) ∧
      (∀ tag, tag ∈ repeated ↔ 1 < (branches.map Prod.fst).count tag) ∧
      ∀ log, (buildVariant discriminant (branches.map pairOf)).run.run log =
        (.ok (variant discriminant branches), log ++ if repeated = [] then [] else [repeatedRecord repeated]) := by
  refine ⟨fun v => ⟨decodeTagged_eq discriminant branches v, encodeTagged_eq discriminant branches v⟩,
    dispatches discriminant branches, alike_unseen discriminant branches,
    repeatedTags (branches.map Prod.fst), pairwise_repeatedTags _, fun tag => mem_repeatedTags, fun log => ?_⟩
  rw [← tagWarnings_eq]
  exact yields_buildVariant discriminant hne log

/-- Branches of which the last one is hidden by the first. -/
def shadowed : List Branch :=
  [("circle", [("radius", .scalar .float)]), ("point", []), ("circle", [("diameter", .scalar .float)])]

theorem variant_first_match_shadowed :
    shadowed ≠ [] ∧
    (∀ v, decodeTagged "type" shadowed v = (variant "type" shadowed).decode v ∧
      encodeTagged "type" shadowed v = (variant "type" shadowed).encode v) ∧
    (∀ entries, Dispatches "type" shadowed entries) ∧
    (∀ entries, Alike "type" shadowed (Named.unseen [] shadowed) entries) ∧
    ∃ repeated : List String, repeated.Pairwise (· < ·) ∧
      (∀ tag, tag ∈ repeated ↔ 1 < (shadowed.map Prod.fst).count tag) ∧
      ∀ log, (buildVariant "type" (shadowed.map pairOf)).run.run log =
        (.ok (variant "type" shadowed), log ++ if repeated = [] then [] else [repeatedRecord repeated]) :=
  ⟨by simp [shadowed], variant_first_match "type" (by simp [shadowed])⟩

end Wireform.Schema
