import Wireform.Proofs.Schema.Failure

/-!
# What reading depends on

Two values that agree wherever a schema looks are read alike: as the same value, or with the same expectation
missed, or with the same fault at a part of which no text can be made. A schema looks at nothing else, so keys
that are not declared, the order of keys, items past the last position and the difference between a list and a
tuple have no influence, and what is missing is null.
-/
namespace Wireform.Schema

/-- `Agree s v w`: the values `v` and `w` are equal under the schema `s`. -/
inductive Agree : Schema → Value → Value → Prop
  | scalar (kind : Scalar) (v : Value) : Agree (.scalar kind) v v
  | absent (inner : Schema) : Agree (.optional inner) .null .null
  | present {inner : Schema} {v w : Value} : v ≠ .null → w ≠ .null → Agree inner v w →
      Agree (.optional inner) v w
  | null (inner : Schema) : Agree (.nullable inner) .null .null
  | notNull {inner : Schema} {v w : Value} : v ≠ .null → w ≠ .null → Agree inner v w →
      Agree (.nullable inner) v w
  | array {item : Schema} {v w : Value} {xs ys : List Value} : v.items? = some xs →
      w.items? = some ys → xs.length = ys.length → (∀ p ∈ xs.zip ys, Agree item p.1 p.2) →
      Agree (.array item) v w
  | tuple {positions : List Schema} {v w : Value} {xs ys : List Value} : v.items? = some xs →
      w.items? = some ys →
      (∀ (i : Nat) (p : Schema), positions[i]? = some p →
        Agree p (xs.getD i .null) (ys.getD i .null)) →
      Agree (.tuple positions) v w
  | noFields (v w : Value) : Agree (.object []) v w
  | object {fields : List (String × Schema)} {entries others : List (Value × Value)} :
      (∀ f ∈ fields, Agree f.2 (Value.getD f.1 entries) (Value.getD f.1 others)) →
      Agree (.object fields) (.map entries) (.map others)
  | oneOf (members : List String) (v : Value) : Agree (.oneOf members) v v
  | variant {discriminant tag : String} {branches : List Branch} {entries others : List (Value × Value)} :
      Value.getD discriminant entries = .str tag → Value.getD discriminant others = .str tag →
      (∀ fields, branch? tag branches = some fields →
        Agree (.object fields) (.map entries) (.map others)) →
      Agree (.variant discriminant branches) (.map entries) (.map others)

/-- What is told by a fault whatever was found: the kind of an operation, or what was expected. -/
def expectation : Raised → FaultKind ⊕ String
  | .operation kind => .inl kind
  | .mismatch m => .inr m.expected

/-- What was read, or what is told instead of it. -/
def outcome {α : Type} (x : Attempt α) : Except (FaultKind ⊕ String) α :=
  x.mapError expectation

variable {α β : Type}

theorem outcome_eq_iff {x y : Attempt α} :
    outcome x = outcome y ↔
      (∃ a, x = .ok a ∧ y = .ok a) ∨
        ∃ d e, x = .error d ∧ y = .error e ∧ expectation d = expectation e := by
  cases x <;> cases y <;> simp [outcome, Except.mapError, eq_comm]

theorem outcome_map (f : α → β) (x : Attempt α) : outcome (x.map f) = (outcome x).map f := by
  cases x <;> rfl

theorem outcome_of_map {f : α → β} (hf : f.Injective) {x y : Attempt α}
    (h : outcome (x.map f) = outcome (y.map f)) : outcome x = outcome y := by
  rw [outcome_map, outcome_map] at h
  cases hx : outcome x <;> cases hy : outcome y <;> simp_all [Except.map, hf.eq_iff]

/-- Steps that are alike, and alike in what follows them. -/
theorem outcome_bind {x y : Attempt α} {f g : α → Attempt β} (h : outcome x = outcome y)
    (hnext : ∀ a, outcome (f a) = outcome (g a)) : outcome (x >>= f) = outcome (y >>= g) := by
  rcases outcome_eq_iff.mp h with ⟨a, rfl, rfl⟩ | ⟨d, e, rfl, rfl, hde⟩
  · exact hnext a
  · exact congrArg Except.error hde

theorem outcome_collect {f g : α → Attempt β} {as bs : List α}
    (h : List.Forall₂ (fun a b => outcome (f a) = outcome (g b)) as bs) :
    outcome (collect f as) = outcome (collect g bs) := by
  induction h with
  | nil => rfl
  | cons hab _ ih =>
      rw [collect_cons, collect_cons]
      exact outcome_bind hab fun b => by rw [outcome_map, outcome_map, ih]

variable {fields : List (String × Schema)} {entries others : List (Value × Value)}

theorem outcome_attemptFields
    (h : ∀ f ∈ fields,
      outcome (f.2.attempt (Value.getD f.1 entries)) = outcome (f.2.attempt (Value.getD f.1 others))) :
    outcome (attemptFields fields entries) = outcome (attemptFields fields others) := by
  rw [attemptFields_eq_collect, attemptFields_eq_collect]
  exact outcome_collect (List.forall₂_same.mpr fun f hf => by rw [outcome_map, outcome_map, h f hf])

theorem outcome_attemptPositions {positions : List Schema} {xs ys : List Value}
    (h : ∀ (i : Nat) (p : Schema), positions[i]? = some p →
      outcome (p.attempt (xs.getD i .null)) = outcome (p.attempt (ys.getD i .null))) :
    outcome (attemptPositions positions xs) = outcome (attemptPositions positions ys) := by
  rw [attemptPositions_eq_collect, attemptPositions_eq_collect]
  exact outcome_collect
    (List.forall₂_same.mpr fun p hp => h p.2 p.1 (List.mem_zipIdx_iff_getElem?.mp hp))

theorem Agree.outcome_eq {s : Schema} {v w : Value} (h : s.Agree v w) :
    outcome (s.attempt v) = outcome (s.attempt w) := by
  induction h with
  | scalar kind v => rfl
  | absent inner => rfl
  | present hv hw _ ih => rw [attempt_optional hv, attempt_optional hw, ih]
  | null inner => rfl
  | notNull hv hw _ ih => rw [attempt_nullable hv, attempt_nullable hw, ih]
  | array hxs hys hlength _ ih =>
      have hitems := List.forall₂_iff_zip.mpr ⟨hlength, fun hp => ih _ hp⟩
      rw [attempt_array hxs, attempt_array hys, outcome_map, outcome_map, outcome_collect hitems]
  | tuple hxs hys _ ih =>
      rw [attempt_tuple hxs, attempt_tuple hys, outcome_map, outcome_map, outcome_attemptPositions ih]
  | noFields v w => rw [attempt_object_nil, attempt_object_nil]
  | object _ ih => rw [attempt, attempt, outcome_map, outcome_map, outcome_attemptFields ih]
  | oneOf members v => rfl
  | @variant discriminant tag branches entries others hv hw _ ih =>
      cases hfields : branch? tag branches with
      | none =>
          have hnone {entries : List (Value × Value)} (htag : Value.getD discriminant entries = .str tag) :
              ∀ other, Value.getD discriminant entries = .str other → branch? other branches = none := by
            intro other hother
            exact Value.str.inj (htag.symm.trans hother) ▸ hfields
          rw [attempt_variant_of_none (hnone hv), attempt_variant_of_none (hnone hw)]
          rfl
      | some fields =>
          have hbranch := ih fields hfields
          rw [attempt, attempt] at hbranch
          have hread := outcome_of_map (fun _ _ => Value.map.inj) hbranch
          rw [attempt_variant hv hfields, attempt_variant hw hfields, outcome_map, outcome_map, hread]

/-- A path leads to a reader of numbers or times and to a part of which no text can be made. -/
def MeetsTextless (s : Schema) (v : Value) : Prop :=
  ∃ steps kind w, Leads s v steps (.scalar kind) w ∧ kind.readsText = true ∧ w.Textless

/-- What an operation raises, it raises at such a part. -/
theorem meetsTextless_of_attempt {s : Schema} {v : Value} {kind : FaultKind}
    (h : s.attempt v = .error (.operation kind)) : kind = .value ∧ s.MeetsTextless v := by
  obtain ⟨steps, node, w, hleads, hfails⟩ := leads_of_attempt h
  cases hfails with
  | stumbles hstumbles => exact ⟨rfl, steps, _, w, hleads, hstumbles⟩

/-- Values that agree under a schema are read as the same value, or the same is expected of both, or both have a
part where no text can be made, and the same is raised. -/
theorem attempt_eq_of_agree {s : Schema} {v w : Value} (h : s.Agree v w) :
    (∃ t, s.attempt v = .ok t ∧ s.attempt w = .ok t) ∨
      (∃ m n, s.attempt v = .error (.mismatch m) ∧ s.attempt w = .error (.mismatch n) ∧
        m.expected = n.expected) ∨
      (s.attempt v = .error (.operation .value) ∧ s.attempt w = .error (.operation .value) ∧
        s.MeetsTextless v ∧ s.MeetsTextless w) := by
  rcases outcome_eq_iff.mp h.outcome_eq with hread | ⟨d, e, hv, hw, hde⟩
  · exact .inl hread
  · cases d with
    | operation kind =>
        cases e with
        | mismatch n => cases hde
        | operation other =>
            obtain ⟨rfl, hmeets⟩ := meetsTextless_of_attempt hv
            obtain ⟨rfl, hmeets'⟩ := meetsTextless_of_attempt hw
            exact .inr (.inr ⟨hv, hw, hmeets, hmeets'⟩)
    | mismatch m =>
        cases e with
        | operation kind => cases hde
        | mismatch n => exact .inr (.inl ⟨m, n, hv, hw, Sum.inr.inj hde⟩)

/-- A set with too long an integer agrees with itself, and neither is an integer read from it nor is one
expected. -/
theorem longSet_agrees_unread :
    (scalar .integer).Agree longSet longSet ∧
      ¬ ((∃ t, (scalar .integer).attempt longSet = .ok t ∧ (scalar .integer).attempt longSet = .ok t) ∨
        ∃ m n, (scalar .integer).attempt longSet = .error (.mismatch m) ∧
          (scalar .integer).attempt longSet = .error (.mismatch n) ∧ m.expected = n.expected) := by
  refine ⟨.scalar .integer longSet, ?_⟩
  rw [attempt_scalar_of_stumbles ⟨rfl, textless_longSet⟩]
  rintro (⟨_, h, -⟩ | ⟨_, _, h, -⟩)
  · cases h
  · cases h

/-- A visit by number: a town, and a house in it if known. -/
def visit : Schema :=
  .object [("id", .scalar .integer), ("to", .tuple [.scalar .string, .nullable (.scalar .integer)])]

def visitWithNote : Value :=
  .map [(.str "to", .list [.str "Graz"]), (.str "note", .str "late"), (.str "id", .int 7)]

def visitWithTime : Value :=
  .map [(.str "id", .int 7), (.str "to", .tuple [.str "Graz", .null, .str "noon"])]

theorem agree_visit : visit.Agree visitWithNote visitWithTime := by
  refine .object (List.forall_mem_cons.mpr ⟨?_, List.forall_mem_singleton.mpr ?_⟩)
  · exact .scalar .integer (.int 7)
  · refine .tuple (v := .list [.str "Graz"]) (w := .tuple [.str "Graz", .null, .str "noon"]) rfl rfl ?_
    intro i p hp
    match i with
    | 0 =>
        obtain rfl := Option.some.inj hp
        exact .scalar .string (.str "Graz")
    | 1 =>
        obtain rfl := Option.some.inj hp
        exact .null (.scalar .integer)
    | i + 2 => cases hp

theorem attempt_eq_of_agree_visit :
    visit.Agree visitWithNote visitWithTime ∧
      ∃ t, visit.attempt visitWithNote = .ok t ∧ visit.attempt visitWithTime = .ok t := by
  have halternatives := attempt_eq_of_agree agree_visit
  have hread : visit.attempt visitWithNote =
      .ok (.map [(.str "id", .int 7), (.str "to", .tuple [.str "Graz", .null])]) := rfl
  refine ⟨agree_visit, halternatives.resolve_right ?_⟩
  rw [hread]
  rintro (⟨_, _, h, -⟩ | ⟨h, -⟩)
  · cases h
  · cases h

end Wireform.Schema
