import Wireform.Schema.Attempt
import Wireform.Proofs.Attempt
import Wireform.Proofs.Schema.Fields

/-!
# Decoding by operations that raise

What each combinator raises or gives, with the look-ups and messages that never fail left out. Only a reader of
numbers and times can raise anything but a mismatch, at a value that no text can be made of. Where there is no
such value inside, decoding by operations that raise is decoding as it is defined.
-/
namespace Wireform

namespace Scalar

/-- The kinds that read a number or a time from the loose text of a value. -/
def readsText : Scalar → Bool
  | integer | float | dateUnixSecs | dateUnixMillis | dateIso => true
  | string | boolean | raw | nothing => false

/-- The kind asks for the text of a value of which no text can be made. -/
def Stumbles (kind : Scalar) (v : Value) : Prop :=
  kind.readsText = true ∧ v.Textless

theorem attempt?_raises (kind : Scalar) (v : Value) :
    Attempt.RaisesIf (kind.Stumbles v) (kind.attempt? v) (kind.read? v) := by
  cases kind with
  | integer => exact ((Attempt.toInt_raises v).map _).congr (and_iff_right rfl).symm
  | float => exact ((Attempt.toDouble_raises v).map _).congr (and_iff_right rfl).symm
  | dateUnixSecs => exact ((Attempt.secondsToDateTime_raises v).map _).congr (and_iff_right rfl).symm
  | dateUnixMillis => exact ((Attempt.millisToDateTime_raises v).map _).congr (and_iff_right rfl).symm
  | dateIso => exact ((Attempt.isoToDateTime_raises v).map _).congr (and_iff_right rfl).symm
  | string | boolean | raw | nothing => exact Attempt.raisesIf_ok (fun h => Bool.false_ne_true h.1) _

end Scalar

namespace Schema

variable {α β : Type}

theorem map_mapError (f : α → β) (x : Except Mismatch α) :
    (x.mapError Raised.mismatch).map f = (x.map f).mapError .mismatch := by
  cases x <;> rfl

theorem collect_mapError {f : α → Attempt β} {g : α → Except Mismatch β} {as : List α}
    (h : ∀ a ∈ as, f a = (g a).mapError .mismatch) : collect f as = (collect g as).mapError .mismatch := by
  induction as with
  | nil => rfl
  | cons a as ih =>
      simp only [List.forall_mem_cons] at h
      rw [collect, collect, h.1, ih h.2]
      cases g a <;> cases collect g as <;> rfl

theorem find?_sameKey (members : List String) (s : String) :
    members.find? (fun member => Value.sameKey (.str member) (.str s)) =
      if s ∈ members then some s else none := by
  induction members with
  | nil => rfl
  | cons member members ih =>
      by_cases hsame : member = s
      · simp [hsame]
      · have hother : Value.sameKey (.str member) (.str s) = false := by
          simpa [Value.sameKey] using hsame
        rw [List.find?_cons_of_neg (by simp [hother]), ih]
        simp only [List.mem_cons, Ne.symm hsame, false_or]

/-- Only a text is looked up among the members, and a text can be a key. -/
theorem attempt_oneOf (members : List String) (v : Value) :
    (oneOf members).attempt v = ((oneOf members).decode v).mapError .mismatch := by
  cases v with
  | str s =>
      have hfound : Attempt.lookUp (.str s) (members.find? fun member => Value.sameKey (.str member) (.str s)) =
          .ok (if s ∈ members then some s else none) := congrArg Except.ok (find?_sameKey members s)
      simp only [attempt, decode, Value.isText, if_true, hfound, Attempt.ok_bind]
      by_cases hmem : s ∈ members
      · simp only [if_pos hmem]
        rfl
      · simp only [if_neg hmem]
        exact Attempt.fail_eq _ _
  | _ =>
      simp only [attempt, decode, Value.isText, Bool.false_eq_true, if_false, Attempt.ok_bind,
        Attempt.fail_eq]
      rfl

/-! ### What each combinator raises -/

theorem attempt_scalar_of_stumbles {kind : Scalar} {v : Value} (h : kind.Stumbles v) :
    (scalar kind).attempt v = .error (.operation .value) := by
  rw [attempt, (kind.attempt?_raises v).eq_error h]
  rfl

theorem attempt_scalar {kind : Scalar} {v : Value} (h : ¬ kind.Stumbles v) :
    (scalar kind).attempt v = ((scalar kind).decode v).mapError .mismatch := by
  rw [attempt, (kind.attempt?_raises v).eq_ok h, Attempt.ok_bind, decode]
  cases kind.read? v with
  | some t => rfl
  | none => exact Attempt.fail_eq _ _

theorem attempt_optional {v : Value} (h : v ≠ .null) (inner : Schema) :
    (optional inner).attempt v = inner.attempt v := by
  cases v with
  | null => exact absurd rfl h
  | _ => simp only [attempt]

theorem attempt_nullable {v : Value} (h : v ≠ .null) (inner : Schema) :
    (nullable inner).attempt v = inner.attempt v := by
  cases v with
  | null => exact absurd rfl h
  | _ => simp only [attempt]

theorem attempt_array {v : Value} {items : List Value} (h : v.items? = some items) (item : Schema) :
    (array item).attempt v = (collect item.attempt items).map .list := by
  rw [attempt, h]

theorem attempt_array_of_none {v : Value} (h : v.items? = none) (item : Schema) :
    (array item).attempt v = .error (.mismatch ⟨"array", v⟩) := by
  rw [attempt, h]
  exact Attempt.fail_eq _ _

theorem attempt_object {fields : List (String × Schema)} {v : Value} (hne : fields ≠ [])
    (h : ∀ entries, v ≠ .map entries) : (object fields).attempt v = .error (.mismatch ⟨"an object", v⟩) := by
  have hempty : fields.isEmpty = false := List.isEmpty_eq_false_iff.mpr hne
  cases v with
  | map entries => exact absurd rfl (h entries)
  | _ => simp only [attempt, hempty, Bool.false_eq_true, if_false, Attempt.fail_eq]

/-- Without fields nothing is looked at. -/
theorem attempt_object_nil (v : Value) : (object []).attempt v = .ok (.map []) := by
  cases v with
  | map entries => rfl
  | _ => rfl

/-- The fields of an object are read like the items of an array, each by a schema of its own. -/
theorem attemptFields_eq_collect (fields : List (String × Schema)) (entries : List (Value × Value)) :
    attemptFields fields entries =
      collect (fun f => (f.2.attempt (Value.getD f.1 entries)).map fun v => (.str f.1, v)) fields := by
  induction fields with
  | nil => rfl
  | cons f fields ih =>
      rw [attemptFields, collect, ih]
      generalize collect _ fields = rest
      cases f.2.attempt (Value.getD f.1 entries) <;> cases rest <;> rfl

theorem attemptPositions_eq_collect (positions : List Schema) (items : List Value) :
    attemptPositions positions items =
      collect (fun p => p.1.attempt (items.getD p.2 .null)) positions.zipIdx := by
  have hfrom : ∀ n, attemptPositions positions (items.drop n) =
      collect (fun p => p.1.attempt (items.getD p.2 .null)) (positions.zipIdx n) := by
    induction positions with
    | nil => exact fun _ => rfl
    | cons s positions ih =>
        intro n
        have hhead : (items.drop n).headD .null = items.getD n .null := by
          simp [List.headD_eq_head?_getD, List.head?_drop, List.getD_eq_getElem?_getD]
        rw [attemptPositions, hhead, List.tail_drop, ih (n + 1), List.zipIdx_cons, collect]
        generalize collect _ (positions.zipIdx (n + 1)) = rest
        cases s.attempt (items.getD n .null) <;> cases rest <;> rfl
  exact hfrom 0

theorem attempt_tuple {v : Value} {items : List Value} (h : v.items? = some items) (positions : List Schema) :
    (tuple positions).attempt v = (attemptPositions positions items).map .tuple := by
  rw [attempt, h]

theorem attempt_tuple_of_none {v : Value} (h : v.items? = none) (positions : List Schema) :
    (tuple positions).attempt v = .error (.mismatch ⟨"an array", v⟩) := by
  rw [attempt, h]
  exact Attempt.fail_eq _ _

theorem attemptBranch_str (tag : String) (branches : List (String × List (String × Schema)))
    (entries : List (Value × Value)) :
    attemptBranch (.str tag) branches entries =
      (branch? tag branches).map fun fields => attemptFields fields entries := by
  induction branches with
  | nil => rfl
  | cons b branches ih =>
      obtain ⟨t, fields⟩ := b
      rw [attemptBranch, branch?_cons, ih]
      simp only [Value.sameKey_str, Value.str.injEq]
      split <;> rfl

section

variable {discriminant tag : String} {branches : List Branch} {entries : List (Value × Value)}

/-- The branch of a tag reads the fields, and the tag is put over them. -/
theorem attempt_variant {fields : List (String × Schema)} (htag : Value.getD discriminant entries = .str tag)
    (hfields : branch? tag branches = some fields) :
    (variant discriminant branches).attempt (.map entries) = (attemptFields fields entries).map
      fun out => .map (Value.put (.str discriminant) (.str tag) out) := by
  simp only [attempt, htag, Value.isText, if_true, Attempt.lookUp, Value.isKey, Attempt.ok_bind,
    attemptBranch_str, hfields, Option.map_some]

/-- A tag that is no text is not looked up, so it does not matter whether it can be a key. -/
theorem attempt_variant_of_none
    (h : ∀ tag, Value.getD discriminant entries = .str tag → branch? tag branches = none) :
    (variant discriminant branches).attempt (.map entries) =
      .error (.mismatch ⟨tagsLabel discriminant (branches.map Prod.fst), .map entries⟩) := by
  simp only [attempt]
  cases htag : Value.getD discriminant entries with
  | str tag =>
      simp only [Value.isText, if_true, Attempt.lookUp, Value.isKey, Attempt.ok_bind, attemptBranch_str,
        h tag htag, Option.map_none]
      exact Attempt.fail_eq _ _
  | _ => exact Attempt.fail_eq _ _

theorem attempt_variant_of_no_map {v : Value} (h : ∀ entries, v ≠ .map entries) :
    (variant discriminant branches).attempt v = .error (.mismatch ⟨"an object", v⟩) := by
  cases v with
  | map entries => exact absurd rfl (h entries)
  | _ => exact Attempt.fail_eq _ _

end

/-! ### Decoding as it is defined -/

mutual

/-- What decoding raises are mismatches, and there it is the same as by its definition. -/
theorem attempt_eq (s : Schema) {v : Value} (h : v.hasTexts = true) :
    s.attempt v = (s.decode v).mapError .mismatch := by
  cases s with
  | scalar kind => exact attempt_scalar fun hstumbles => Value.not_textless_of_hasTexts h hstumbles.2
  | optional inner =>
      have hinner := attempt_eq inner h
      cases v with
      | null => rfl
      | _ => exact hinner
  | nullable inner =>
      have hinner := attempt_eq inner h
      cases v with
      | null => rfl
      | _ => exact hinner
  | array item =>
      rw [attempt, decode]
      cases hitems : v.items? with
      | none => exact Attempt.fail_eq _ _
      | some items =>
          have hall := Value.haveTexts_iff.mp (Value.hasTexts_of_items? hitems h)
          have hitems := collect_mapError fun x hx => attempt_eq item (hall x hx)
          simp only [hitems, map_mapError]
  | object fields =>
      cases v with
      | map entries => simp only [attempt, decode, attemptFields_eq fields h, map_mapError]
      | _ =>
          simp only [attempt, decode, Attempt.fail_eq]
          split <;> rfl
  | tuple positions =>
      rw [attempt, decode]
      cases hitems : v.items? with
      | none => exact Attempt.fail_eq _ _
      | some items =>
          have hpositions := attemptPositions_eq positions (Value.hasTexts_of_items? hitems h)
          simp only [hpositions, map_mapError]
  | oneOf members => exact attempt_oneOf members v
  | variant discriminant branches =>
      cases v with
      | map entries =>
          by_cases hbranch : ∃ tag fields, Value.getD discriminant entries = .str tag ∧
              branch? tag branches = some fields
          · obtain ⟨tag, fields, htag, hfields⟩ := hbranch
            have hsmaller : sizeOf fields < sizeOf branches := by
              have hmem := List.sizeOf_lt_of_mem (mem_of_branch? hfields)
              simp only [Prod.mk.sizeOf_spec] at hmem
              omega
            rw [attempt_variant htag hfields, attemptFields_eq fields h, map_mapError]
            simp only [decode, htag, decodeBranch_eq, hfields, Option.map_some]
          · have hnone : ∀ tag, Value.getD discriminant entries = .str tag → branch? tag branches = none := by
              intro tag htag
              cases hfields : branch? tag branches with
              | none => rfl
              | some fields => exact absurd ⟨tag, fields, htag, hfields⟩ hbranch
            rw [attempt_variant_of_none hnone, decode]
            cases htag : Value.getD discriminant entries with
            | str tag => simp only [decodeBranch_eq, hnone tag htag, Option.map_none]; rfl
            | _ => rfl
      | _ => exact Attempt.fail_eq _ _

theorem attemptFields_eq (fields : List (String × Schema)) {entries : List (Value × Value)}
    (h : Value.entriesHaveTexts entries = true) :
    attemptFields fields entries = (decodeFields fields entries).mapError .mismatch := by
  match fields with
  | [] => rfl
  | (name, s) :: fields =>
      rw [attemptFields, decodeFields, attempt_eq s (Value.hasTexts_getD name h), attemptFields_eq fields h]
      cases s.decode (Value.getD name entries) <;> cases decodeFields fields entries <;> rfl

theorem attemptPositions_eq (positions : List Schema) {items : List Value}
    (h : Value.haveTexts items = true) :
    attemptPositions positions items = (decodePositions positions items).mapError .mismatch := by
  match positions with
  | [] => rfl
  | s :: positions =>
      rw [attemptPositions, decodePositions, attempt_eq s (Value.hasTexts_headD h),
        attemptPositions_eq positions (Value.haveTexts_tail h)]
      cases s.decode (items.headD .null) <;> cases decodePositions positions items.tail <;> rfl

end

end Schema
end Wireform
