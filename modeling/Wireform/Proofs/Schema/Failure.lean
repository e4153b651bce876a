import Wireform.Proofs.Schema.Attempt

/-!
# Where reading fails

Reading fails at the first node that does not read its part of the value. A path leads from the whole to that
node: into what is present, to an item, a field or a position before which everything is read, or into the branch
that the tag selects. A node that refuses gives its label and the part that it was given. The one other fault is
that of a reader of numbers or times at a set or an object of which no text can be made.
-/
namespace Wireform

theorem collect_eq_error {ε α β : Type} {f : α → Except ε β} {as : List α} {e : ε} :
    collect f as = .error e ↔ ∃ (i : Nat) (a : α), as[i]? = some a ∧ f a = .error e ∧
      ∀ j b, j < i → as[j]? = some b → ∃ c, f b = .ok c := by
  induction as with
  | nil => simp [collect]
  | cons a as ih =>
      rw [collect_cons]
      constructor
      · intro h
        cases ha : f a with
        | error e' =>
            rw [ha] at h
            have he : e' = e := Except.error.inj h
            exact ⟨0, a, rfl, he ▸ ha, fun j b hj => absurd hj (Nat.not_lt_zero j)⟩
        | ok c =>
            rw [ha] at h
            have hrest : collect f as = .error e := map_eq_error.mp h
            obtain ⟨i, b, hb, hfail, hbefore⟩ := ih.mp hrest
            refine ⟨i + 1, b, hb, hfail, fun j d hj hd => ?_⟩
            cases j with
            | zero => exact ⟨c, Option.some.inj hd ▸ ha⟩
            | succ j => exact hbefore j d (Nat.lt_of_succ_lt_succ hj) hd
      · intro h
        obtain ⟨i, b, hb, hfail, hbefore⟩ := h
        cases i with
        | zero =>
            have hab : a = b := Option.some.inj hb
            rw [hab, hfail]
            rfl
        | succ i =>
            obtain ⟨c, hc⟩ := hbefore 0 a (Nat.succ_pos i) rfl
            have hrest : collect f as = .error e := ih.mpr ⟨i, b, hb, hfail, fun j d hj hd =>
              hbefore (j + 1) d (Nat.succ_lt_succ hj) hd⟩
            rw [hc, hrest]
            rfl

namespace Schema

/-- One step of a path from a schema and a value to a node and its part of the value. -/
inductive Step
  | present
  | item (i : Nat)
  | field (name : String)
  | position (i : Nat)
  | branch (tag : String)

def Reads (s : Schema) (v : Value) : Prop :=
  ∃ t, s.attempt v = .ok t

/-- `Next s v step p w`: one step leads from the schema `s` and the value `v` to the part `p` and the value `w`
that it is given, and everything before that part is read. -/
inductive Next : Schema → Value → Step → Schema → Value → Prop
  | optional {v : Value} (inner : Schema) : v ≠ .null → Next (.optional inner) v .present inner v
  | nullable {v : Value} (inner : Schema) : v ≠ .null → Next (.nullable inner) v .present inner v
  | item {item : Schema} {v x : Value} {items : List Value} {i : Nat} :
      v.items? = some items → items[i]? = some x →
      (∀ j y, j < i → items[j]? = some y → item.Reads y) → Next (.array item) v (.item i) item x
  | field {fields : List (String × Schema)} {f : String × Schema} {entries : List (Value × Value)}
      {i : Nat} : fields[i]? = some f →
      (∀ j g, j < i → fields[j]? = some g → g.2.Reads (Value.getD g.1 entries)) →
      Next (.object fields) (.map entries) (.field f.1) f.2 (Value.getD f.1 entries)
  | position {positions : List Schema} {p : Schema} {v : Value} {items : List Value} {i : Nat} :
      v.items? = some items → positions[i]? = some p →
      (∀ j q, j < i → positions[j]? = some q → q.Reads (items.getD j .null)) →
      Next (.tuple positions) v (.position i) p (items.getD i .null)
  | branch {discriminant tag : String} {branches : List Branch} {fields : List (String × Schema)}
      {entries : List (Value × Value)} :
      Value.getD discriminant entries = .str tag → branch? tag branches = some fields →
      Next (.variant discriminant branches) (.map entries) (.branch tag) (.object fields) (.map entries)

/-- A path, step by step. -/
inductive Leads : Schema → Value → List Step → Schema → Value → Prop
  | here (s : Schema) (v : Value) : Leads s v [] s v
  | step {s p node : Schema} {v u w : Value} {step : Step} {steps : List Step} : Next s v step p u →
      Leads p u steps node w → Leads s v (step :: steps) node w

/-- `Refuses s v label`: the node `s` itself does not take the value `v`, whatever its parts, and says that
`label` was expected. -/
inductive Refuses : Schema → Value → String → Prop
  | scalar {kind : Scalar} {v : Value} : ¬ kind.Stumbles v → kind.read? v = none →
      Refuses (.scalar kind) v kind.label
  | array {v : Value} (item : Schema) : v.items? = none → Refuses (.array item) v "array"
  | object {fields : List (String × Schema)} {v : Value} : fields ≠ [] →
      (∀ entries, v ≠ .map entries) → Refuses (.object fields) v "an object"
  | tuple {v : Value} (positions : List Schema) : v.items? = none →
      Refuses (.tuple positions) v "an array"
  | oneOf {members : List String} {v : Value} : (∀ s ∈ members, v ≠ .str s) →
      Refuses (.oneOf members) v (membersLabel members)
  | noMap {v : Value} (discriminant : String) (branches : List Branch) :
      (∀ entries, v ≠ .map entries) → Refuses (.variant discriminant branches) v "an object"
  | noBranch {discriminant : String} {branches : List Branch} {entries : List (Value × Value)} :
      (∀ tag, Value.getD discriminant entries = .str tag → branch? tag branches = none) →
      Refuses (.variant discriminant branches) (.map entries)
        (tagsLabel discriminant (branches.map Prod.fst))

/-- `Fails s v e`: the node `s` itself fails at the value `v` with the fault `e`. It refuses the value, or it
reads a number or a time and no text can be made of the value. -/
inductive Fails : Schema → Value → Raised → Prop
  | refuses {s : Schema} {v : Value} {label : String} : Refuses s v label →
      Fails s v (.mismatch ⟨label, v⟩)
  | stumbles {kind : Scalar} {v : Value} : kind.Stumbles v → Fails (.scalar kind) v (.operation .value)

variable {e : Raised}

theorem attemptFields_eq_error {fields : List (String × Schema)} {entries : List (Value × Value)} :
    attemptFields fields entries = .error e ↔ ∃ (i : Nat) (f : String × Schema), fields[i]? = some f ∧
      f.2.attempt (Value.getD f.1 entries) = .error e ∧
      ∀ j g, j < i → fields[j]? = some g → g.2.Reads (Value.getD g.1 entries) := by
  have hreads (x : Attempt Value) (name : String) :
      (∃ p, x.map (fun v => (Value.str name, v)) = .ok p) ↔ ∃ v, x = .ok v := by
    cases x <;> simp [Except.map]
  simp only [attemptFields_eq_collect, collect_eq_error, map_eq_error, hreads, Reads]

theorem attemptPositions_eq_error {positions : List Schema} {items : List Value} :
    attemptPositions positions items = .error e ↔ ∃ (i : Nat) (p : Schema), positions[i]? = some p ∧
      p.attempt (items.getD i .null) = .error e ∧
      ∀ j q, j < i → positions[j]? = some q → q.Reads (items.getD j .null) := by
  simp only [attemptPositions_eq_collect, collect_eq_error, List.getElem?_zipIdx, Option.map_eq_some_iff,
    Nat.zero_add, Reads]
  constructor
  · intro h
    obtain ⟨i, _, ⟨p, hp, rfl⟩, hfail, hbefore⟩ := h
    exact ⟨i, p, hp, hfail, fun j q hj hq => hbefore j _ hj ⟨q, hq, rfl⟩⟩
  · intro h
    obtain ⟨i, p, hp, hfail, hbefore⟩ := h
    refine ⟨i, _, ⟨p, hp, rfl⟩, hfail, fun j _ hj hq => ?_⟩
    obtain ⟨q, hq, rfl⟩ := hq
    exact hbefore j q hj hq

theorem attempt_of_refuses {s : Schema} {v : Value} {label : String} (h : s.Refuses v label) :
    s.attempt v = .error (.mismatch ⟨label, v⟩) := by
  cases h with
  | scalar hreads hread =>
      rw [attempt_scalar hreads, decode, hread]
      rfl
  | array item hitems => exact attempt_array_of_none hitems item
  | object hne hmap => exact attempt_object hne hmap
  | tuple positions hitems => exact attempt_tuple_of_none hitems positions
  | oneOf hmembers =>
      rw [attempt_oneOf]
      cases v with
      | str s =>
          have hnew : s ∉ _ := fun hs => hmembers s hs rfl
          simp only [decode, if_neg hnew]
          rfl
      | _ => rfl
  | noMap discriminant branches hmap => exact attempt_variant_of_no_map hmap
  | noBranch hbranch => exact attempt_variant_of_none hbranch

theorem Fails.attempt_eq_error {s : Schema} {v : Value} (h : s.Fails v e) : s.attempt v = .error e := by
  cases h with
  | refuses hrefuses => exact attempt_of_refuses hrefuses
  | stumbles hstumbles => exact attempt_scalar_of_stumbles hstumbles

/-- What fails at the next step fails already, with the same fault. -/
theorem Next.attempt_eq_error {s p : Schema} {v w : Value} {step : Step} (h : Next s v step p w)
    (hfail : p.attempt w = .error e) : s.attempt v = .error e := by
  cases h with
  | optional inner hv => rw [attempt_optional hv, hfail]
  | nullable inner hv => rw [attempt_nullable hv, hfail]
  | item hitems hx hbefore =>
      rw [attempt_array hitems]
      exact map_eq_error.mpr (collect_eq_error.mpr ⟨_, _, hx, hfail, hbefore⟩)
  | field hf hbefore =>
      rw [attempt]
      exact map_eq_error.mpr (attemptFields_eq_error.mpr ⟨_, _, hf, hfail, hbefore⟩)
  | position hitems hp hbefore =>
      rw [attempt_tuple hitems]
      exact map_eq_error.mpr (attemptPositions_eq_error.mpr ⟨_, _, hp, hfail, hbefore⟩)
  | branch htag hfields =>
      rw [attempt] at hfail
      rw [attempt_variant htag hfields]
      exact map_eq_error.mpr (map_eq_error.mp hfail)

theorem Next.sizeOf_lt {s p : Schema} {v w : Value} {step : Step} (h : Next s v step p w) :
    sizeOf p < sizeOf s := by
  cases h with
  | optional inner hv | nullable inner hv => simp
  | item hitems hx hbefore => simp
  | @field fields f entries i hf hbefore =>
      have hmem := List.sizeOf_lt_of_mem (List.mem_of_getElem? hf)
      cases f
      simp at hmem ⊢
      omega
  | position hitems hp hbefore =>
      have hmem := List.sizeOf_lt_of_mem (List.mem_of_getElem? hp)
      simp
      omega
  | branch htag hfields =>
      have hmem := List.sizeOf_lt_of_mem (mem_of_branch? hfields)
      simp at hmem ⊢
      omega

/-- The node itself fails at the value, or the next step leads to what fails. -/
def Breaks (s : Schema) (v : Value) (e : Raised) : Prop :=
  s.Fails v e ∨ ∃ step p w, Next s v step p w ∧ p.attempt w = .error e

theorem Refuses.breaks {s : Schema} {v : Value} {label : String} (h : s.Refuses v label)
    (hfail : s.attempt v = .error e) : s.Breaks v e := by
  obtain rfl := Except.error.inj ((attempt_of_refuses h).symm.trans hfail)
  exact .inl (.refuses h)

theorem breaks_scalar {kind : Scalar} {v : Value} (h : (scalar kind).attempt v = .error e) :
    (scalar kind).Breaks v e := by
  by_cases hstumbles : kind.Stumbles v
  · obtain rfl := Except.error.inj ((attempt_scalar_of_stumbles hstumbles).symm.trans h)
    exact .inl (.stumbles hstumbles)
  · cases hread : kind.read? v with
    | none => exact (Refuses.scalar hstumbles hread).breaks h
    | some t =>
        rw [attempt_scalar hstumbles, decode, hread] at h
        cases h

theorem breaks_array {item : Schema} {v : Value} (h : (array item).attempt v = .error e) :
    (array item).Breaks v e := by
  cases hitems : v.items? with
  | none => exact (Refuses.array item hitems).breaks h
  | some items =>
      rw [attempt_array hitems] at h
      obtain ⟨i, x, hx, hfail, hbefore⟩ := collect_eq_error.mp (map_eq_error.mp h)
      exact .inr ⟨_, _, _, .item hitems hx hbefore, hfail⟩

theorem breaks_object {fields : List (String × Schema)} {v : Value}
    (h : (object fields).attempt v = .error e) : (object fields).Breaks v e := by
  by_cases hmap : ∃ entries, v = .map entries
  · obtain ⟨entries, rfl⟩ := hmap
    rw [attempt] at h
    obtain ⟨i, f, hf, hfail, hbefore⟩ := attemptFields_eq_error.mp (map_eq_error.mp h)
    exact .inr ⟨_, _, _, .field hf hbefore, hfail⟩
  · have hno : ∀ entries, v ≠ .map entries := fun entries heq => hmap ⟨entries, heq⟩
    refine (Refuses.object ?_ hno).breaks h
    rintro rfl
    rw [attempt_object_nil] at h
    cases h

theorem breaks_tuple {positions : List Schema} {v : Value} (h : (tuple positions).attempt v = .error e) :
    (tuple positions).Breaks v e := by
  cases hitems : v.items? with
  | none => exact (Refuses.tuple positions hitems).breaks h
  | some items =>
      rw [attempt_tuple hitems] at h
      obtain ⟨i, p, hp, hfail, hbefore⟩ := attemptPositions_eq_error.mp (map_eq_error.mp h)
      exact .inr ⟨_, _, _, .position hitems hp hbefore, hfail⟩

theorem breaks_oneOf {members : List String} {v : Value} (h : (oneOf members).attempt v = .error e) :
    (oneOf members).Breaks v e := by
  refine Refuses.breaks (.oneOf ?_) h
  rintro s hs rfl
  rw [attempt_oneOf, decode, if_pos hs] at h
  cases h

theorem breaks_variant {discriminant : String} {branches : List Branch} {v : Value}
    (h : (variant discriminant branches).attempt v = .error e) :
    (variant discriminant branches).Breaks v e := by
  by_cases hmap : ∃ entries, v = .map entries
  · obtain ⟨entries, rfl⟩ := hmap
    by_cases hbranch : ∃ tag fields, Value.getD discriminant entries = .str tag ∧
        branch? tag branches = some fields
    · obtain ⟨tag, fields, htag, hfields⟩ := hbranch
      rw [attempt_variant htag hfields] at h
      have hobject : (object fields).attempt (.map entries) = .error e := by
        rw [attempt]
        exact map_eq_error.mpr (map_eq_error.mp h)
      exact .inr ⟨_, _, _, .branch htag hfields, hobject⟩
    · refine Refuses.breaks (.noBranch fun tag htag => ?_) h
      exact Option.eq_none_iff_forall_ne_some.mpr fun fields hfields => hbranch ⟨tag, fields, htag, hfields⟩
  · exact (Refuses.noMap discriminant branches fun entries heq => hmap ⟨entries, heq⟩).breaks h

theorem breaks_of_attempt {s : Schema} {v : Value} (h : s.attempt v = .error e) : s.Breaks v e := by
  cases s with
  | scalar kind => exact breaks_scalar h
  | optional inner =>
      have hv : v ≠ .null := by
        rintro rfl
        cases h
      exact .inr ⟨_, _, _, .optional inner hv, attempt_optional hv inner ▸ h⟩
  | nullable inner =>
      have hv : v ≠ .null := by
        rintro rfl
        cases h
      exact .inr ⟨_, _, _, .nullable inner hv, attempt_nullable hv inner ▸ h⟩
  | array item => exact breaks_array h
  | object fields => exact breaks_object h
  | tuple positions => exact breaks_tuple h
  | oneOf members => exact breaks_oneOf h
  | variant discriminant branches => exact breaks_variant h

theorem Leads.attempt_eq_error {s node : Schema} {v w : Value} {steps : List Step}
    (h : Leads s v steps node w) (hfail : node.attempt w = .error e) : s.attempt v = .error e := by
  induction h with
  | here s v => exact hfail
  | step hnext _ ih => exact hnext.attempt_eq_error (ih hfail)

/-- Every step leads to a smaller schema, so the search for the node that fails ends. -/
theorem leads_of_attempt {s : Schema} {v : Value} (h : s.attempt v = .error e) :
    ∃ steps node w, Leads s v steps node w ∧ node.Fails w e := by
  induction hsize : sizeOf s using Nat.strongRecOn generalizing s v with
  | ind n ih =>
      subst hsize
      rcases breaks_of_attempt h with hfails | ⟨step, p, u, hnext, hfail⟩
      · exact ⟨[], s, v, .here s v, hfails⟩
      · obtain ⟨steps, node, w, hleads, hfails⟩ := ih _ hnext.sizeOf_lt hfail rfl
        exact ⟨step :: steps, node, w, .step hnext hleads, hfails⟩

/-- Reading fails exactly if a path leads to a node that fails at its part of the value, with the fault of that
node. So every fault is a mismatch with the label of the node that refuses and the part that it was given, or
else a reader of numbers or times was given a value of which no text can be made. The latter needs a set or an
object with too long an integer inside; without one reading is as it is defined. -/
theorem attempt_fails_first (s : Schema) (v : Value) :
    (∀ e, s.attempt v = .error e ↔ ∃ steps node w, Leads s v steps node w ∧ node.Fails w e) ∧
      (∀ e, s.attempt v = .error e →
        (∃ steps node label w, Leads s v steps node w ∧ node.Refuses w label ∧ e = .mismatch ⟨label, w⟩) ∨
          ∃ steps kind w, Leads s v steps (.scalar kind) w ∧ kind.readsText = true ∧ w.Textless ∧
            e = .operation .value) ∧
      (v.hasTexts = true → s.attempt v = (s.decode v).mapError .mismatch) := by
  refine ⟨fun e => ⟨leads_of_attempt, fun h => ?_⟩, fun e h => ?_, attempt_eq s⟩
  · obtain ⟨steps, node, w, hleads, hfails⟩ := h
    exact hleads.attempt_eq_error hfails.attempt_eq_error
  · obtain ⟨steps, node, w, hleads, hfails⟩ := leads_of_attempt h
    cases hfails with
    | refuses hrefuses => exact .inl ⟨steps, node, _, w, hleads, hrefuses, rfl⟩
    | stumbles hstumbles => exact .inr ⟨steps, _, w, hleads, hstumbles.1, hstumbles.2, rfl⟩

/-- A set and an object with the least integer that has too many digits. -/
def longSet : Value := .set [.int Numeral.tooLarge]

def longRecord : Value := .record [("n", .int Numeral.tooLarge)]

theorem textless_longSet : longSet.Textless := by
  have hlong : Value.HoldsLong (.int Numeral.tooLarge) := .int (Nat.le_of_eq (Int.natAbs_natCast _).symm)
  exact .set (.set (List.mem_singleton_self _) hlong)

theorem textless_longRecord : longRecord.Textless := by
  have hlong : Value.HoldsLong (.int Numeral.tooLarge) := .int (Nat.le_of_eq (Int.natAbs_natCast _).symm)
  exact .record (.attribute (List.mem_singleton_self _) hlong)

/-- An integer is read from neither of them, and what is raised is no mismatch. -/
theorem integer_of_longSet :
    (scalar .integer).attempt longSet = .error (.operation .value) ∧
      (scalar .integer).attempt longRecord = .error (.operation .value) ∧
      ¬ ∀ (s : Schema) (v : Value), (∃ t, s.attempt v = .ok t) ∨ ∃ m, s.attempt v = .error (.mismatch m) := by
  have hset : (scalar .integer).attempt longSet = .error (.operation .value) :=
    attempt_scalar_of_stumbles ⟨rfl, textless_longSet⟩
  refine ⟨hset, attempt_scalar_of_stumbles ⟨rfl, textless_longRecord⟩, fun h => ?_⟩
  rcases h (scalar .integer) longSet with ⟨_, hfails⟩ | ⟨_, hfails⟩
  · cases hset.symm.trans hfails
  · cases hset.symm.trans hfails

/-- An order: its number, and lines with a name and whether they are paid. -/
def order : Schema :=
  .object [("id", .scalar .integer), ("lines", .array (.tuple [.scalar .string, .scalar .boolean]))]

/-- The second line is the first part that does not fit; what comes after it is not looked at. -/
def unclearOrder : Value :=
  .map [(.str "lines", .list [.list [.str "ink", .bool true], .list [.str "nib", .str "no"], .null]),
    (.str "id", .str "7a")]

theorem leads_unclearOrder :
    Leads order unclearOrder [.field "lines", .item 1, .position 1] (.scalar .boolean) (.str "no") := by
  refine .step (.field (f := ("lines", .array (.tuple [.scalar .string, .scalar .boolean]))) (i := 1) rfl ?_)
    (.step (.item (i := 1) rfl rfl ?_) (.step (.position (i := 1) rfl rfl ?_) (.here _ _)))
  all_goals
    intro j part hj hpart
    obtain rfl := Nat.lt_one_iff.mp hj
    obtain rfl := Option.some.inj hpart
  · exact ⟨.int 7, rfl⟩
  · exact ⟨.tuple [.str "ink", .bool true], rfl⟩
  · exact ⟨.str "nib", rfl⟩

theorem attempt_fails_first_order :
    order.attempt unclearOrder = .error (.mismatch ⟨"boolean", .str "no"⟩) ∧
      order.decode unclearOrder = .error ⟨"boolean", .str "no"⟩ := by
  obtain ⟨hleads, -, hdecode⟩ := attempt_fails_first order unclearOrder
  have hrefuses : Refuses (.scalar .boolean) (.str "no") "boolean" :=
    @Refuses.scalar .boolean (.str "no") nofun rfl
  have hfails := (hleads (.mismatch ⟨"boolean", .str "no"⟩)).mpr
    ⟨_, _, _, leads_unclearOrder, .refuses hrefuses⟩
  refine ⟨hfails, ?_⟩
  have hmapped := (hdecode rfl).symm.trans hfails
  cases hread : order.decode unclearOrder with
  | ok t =>
      rw [hread] at hmapped
      cases hmapped
  | error m =>
      rw [hread] at hmapped
      exact congrArg Except.error (Raised.mismatch.inj (Except.error.inj hmapped))

end Schema
end Wireform
