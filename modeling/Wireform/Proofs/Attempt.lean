import Wireform.Attempt
import Wireform.Proofs.Double.Whole
import Wireform.Proofs.Value
import Wireform.Proofs.ValueText

/-!
# Faults that the readers take

Wherever a reader uses an operation that may raise, a test before it excludes that or a handler takes the fault,
so the readers raise nothing and give what they are defined to give. The one operation without a test or a
handler is the text of a set or of an object with attributes, which raises if an integer inside has too many
digits. The text of a message is always made.
-/
namespace Wireform

namespace Value

mutual

/-- Whether all sets and objects with attributes in a value have texts. Whatever is made of null, truth values,
numbers, texts, times, lists, tuples and maps has none of either. -/
def hasTexts : Value → Bool
  | .list items => haveTexts items
  | .tuple items => haveTexts items
  | .map entries => entriesHaveTexts entries
  | .set items => (set items).text?.isSome
  | .record attributes => (record attributes).text?.isSome
  | _ => true

def haveTexts : List Value → Bool
  | [] => true
  | item :: items => hasTexts item && haveTexts items

def entriesHaveTexts : List (Value × Value) → Bool
  | [] => true
  | (_, value) :: entries => hasTexts value && entriesHaveTexts entries

end

theorem haveTexts_iff {items : List Value} : haveTexts items = true ↔ ∀ v ∈ items, v.hasTexts = true := by
  induction items with
  | nil => simp [haveTexts]
  | cons item items ih => simp [haveTexts, ih]

theorem hasTexts_of_items? {v : Value} {items : List Value} (h : v.items? = some items)
    (hv : v.hasTexts = true) : haveTexts items = true := by
  cases v with
  | list xs | tuple xs => exact Option.some.inj h ▸ hv
  | _ => cases h

theorem hasTexts_getD (name : String) {entries : List (Value × Value)} (h : entriesHaveTexts entries = true) :
    (getD name entries).hasTexts = true := by
  induction entries with
  | nil => rfl
  | cons e entries ih =>
      simp only [entriesHaveTexts, Bool.and_eq_true] at h
      rw [getD_cons]
      split
      · exact h.1
      · exact ih h.2

theorem hasTexts_headD {items : List Value} (h : haveTexts items = true) :
    (items.headD .null).hasTexts = true := by
  cases items with
  | nil => rfl
  | cons item items =>
      simp only [haveTexts, Bool.and_eq_true] at h
      exact h.1

theorem haveTexts_tail {items : List Value} (h : haveTexts items = true) : haveTexts items.tail = true := by
  cases items with
  | nil => rfl
  | cons item items =>
      simp only [haveTexts, Bool.and_eq_true] at h
      exact h.2

/-- No loose text can be made of the value: it is a set or an object with an integer inside that has too many
digits, or a list or tuple with an item of that kind. A map needs no texts of what it holds. -/
inductive Textless : Value → Prop
  | set {items : List Value} : (set items).HoldsLong → Textless (.set items)
  | record {attributes : List (String × Value)} : (record attributes).HoldsLong →
      Textless (.record attributes)
  | list {items : List Value} {v : Value} : v ∈ items → Textless v → Textless (.list items)
  | tuple {items : List Value} {v : Value} : v ∈ items → Textless v → Textless (.tuple items)

theorem textless_set {items : List Value} : (set items).Textless ↔ (set items).HoldsLong :=
  ⟨fun | .set h => h, .set⟩

theorem textless_record {attributes : List (String × Value)} :
    (record attributes).Textless ↔ (record attributes).HoldsLong :=
  ⟨fun | .record h => h, .record⟩

theorem textless_list {items : List Value} : (list items).Textless ↔ ∃ v ∈ items, v.Textless :=
  ⟨fun | .list hv h => ⟨_, hv, h⟩, fun ⟨_, hv, h⟩ => .list hv h⟩

theorem textless_tuple {items : List Value} : (tuple items).Textless ↔ ∃ v ∈ items, v.Textless :=
  ⟨fun | .tuple hv h => ⟨_, hv, h⟩, fun ⟨_, hv, h⟩ => .tuple hv h⟩

theorem not_textless_of_hasTexts {v : Value} (h : v.hasTexts = true) : ¬ v.Textless := by
  intro htextless
  induction htextless with
  | set hlong | record hlong =>
      rw [hasTexts, text?_eq_none.mpr hlong] at h
      cases h
  | list hv _ ih | tuple hv _ ih => exact ih (haveTexts_iff.mp h _ hv)

end Value

namespace Attempt

variable {α β : Type}

@[simp] theorem ok_bind (a : α) (f : α → Attempt β) : (Except.ok a : Attempt α) >>= f = f a := rfl

@[simp] theorem pure_eq (a : α) : (pure a : Attempt α) = .ok a := rfl

@[simp] theorem map_ok (f : α → β) (a : α) : (Except.ok a : Attempt α).map f = .ok (f a) := rfl

@[simp] theorem raising_some (kind : FaultKind) (a : α) : raising kind (some a) = .ok a := rfl

@[simp] theorem handling_ok (kinds : List FaultKind) (a : α) (instead : Attempt α) :
    handling kinds (.ok a) instead = .ok a := rfl

/-- What an operation raises is taken by a handler for its kind. -/
theorem handling_raising {kinds : List FaultKind} {kind : FaultKind} (h : kind ∈ kinds) (o : Option α)
    (instead : α) : handling kinds (raising kind o) (.ok instead) = .ok (o.getD instead) := by
  cases o with
  | some a => rfl
  | none => simp [handling, raising, Raised.kind, h]

/-! ### Texts -/

theorem decimal_eq {n : Int} (h : n.natAbs < Numeral.tooLarge) : decimal n = .ok (toString n) := by
  simp only [decimal, Numeral.decimal?, if_pos h, raising_some]

theorem firstScientific_le : Double.firstScientific ≤ Numeral.tooLarge :=
  Nat.pow_le_pow_right (by decide) (by decide)

theorem truncate_of_toInt? {x : Double} {n : Int} (h : x.toInt? = some n) : truncate x = .ok n := by
  cases x with
  | nan => cases h
  | infinite negative => cases h
  | finite negative m e canonical =>
      simp only [Double.toInt?] at h
      split at h
      · exact congrArg (raising .overflow) h
      · cases h

/-- A number that is made an integer is whole, and it has few enough digits to be shown. -/
theorem numberText_eq (x : Double) : numberText x = .ok x.text := by
  cases hx : x.toInt? with
  | none => simp only [numberText, hx]
  | some n =>
      have htext : x.text = if n.natAbs < Double.firstScientific then toString n else x.written := by
        cases x with
        | nan => cases hx
        | infinite negative => cases hx
        | finite negative m e canonical => simp only [Double.text, hx]
      simp only [numberText, hx, htext]
      by_cases hsmall : n.natAbs < Double.firstScientific
      · have hshown := Nat.lt_of_lt_of_le hsmall firstScientific_le
        simp only [if_pos hsmall, truncate_of_toInt? hx, ok_bind, decimal_eq hshown]
      · simp only [if_neg hsmall]

theorem looseInt_eq (n : Int) :
    handling [.value] (decimal n) (.ok (if 0 < n then "Infinity" else "-Infinity")) =
      .ok (Value.looseInt n) :=
  handling_raising (List.mem_singleton_self _) _ _

/-- The attempt raises a bad value if `P` holds, and otherwise gives the result. -/
def RaisesIf (P : Prop) (x : Attempt α) (a : α) : Prop :=
  P ∧ x = .error (.operation .value) ∨ ¬ P ∧ x = .ok a

section

variable {P Q : Prop} {x : Attempt α} {a : α}

theorem raisesIf_ok (h : ¬ P) (a : α) : RaisesIf P (.ok a) a :=
  .inr ⟨h, rfl⟩

theorem RaisesIf.congr (h : RaisesIf P x a) (hPQ : P ↔ Q) : RaisesIf Q x a := by
  rwa [RaisesIf, ← hPQ]

theorem RaisesIf.eq_ok (h : RaisesIf P x a) (hP : ¬ P) : x = .ok a :=
  h.elim (fun hraises => absurd hraises.1 hP) And.right

theorem RaisesIf.eq_error (h : RaisesIf P x a) (hP : P) : x = .error (.operation .value) :=
  h.elim And.right fun hgives => absurd hP hgives.1

/-- A result is followed by what may raise in its turn. -/
theorem RaisesIf.bind {f : α → Attempt β} {b : β} (h : RaisesIf P x a) (hf : RaisesIf Q (f a) b) :
    RaisesIf (P ∨ Q) (x >>= f) b := by
  rcases h with ⟨hP, rfl⟩ | ⟨hP, rfl⟩
  · exact .inl ⟨.inl hP, rfl⟩
  · exact hf.congr (or_iff_right hP).symm

theorem RaisesIf.bind_ok {f : α → Attempt β} {b : β} (h : RaisesIf P x a) (hf : f a = .ok b) :
    RaisesIf P (x >>= f) b := by
  rcases h with ⟨hP, rfl⟩ | ⟨hP, rfl⟩
  · exact .inl ⟨hP, rfl⟩
  · exact .inr ⟨hP, hf⟩

theorem RaisesIf.map (h : RaisesIf P x a) (f : α → β) : RaisesIf P (x.map f) (f a) := by
  rcases h with ⟨hP, rfl⟩ | ⟨hP, rfl⟩
  · exact .inl ⟨hP, rfl⟩
  · exact .inr ⟨hP, rfl⟩

end

theorem raisesIf_raising (o : Option α) (instead : α) :
    RaisesIf (o = none) (raising .value o) (o.getD instead) := by
  cases o with
  | some a => exact raisesIf_ok nofun a
  | none => exact .inl ⟨rfl, rfl⟩

theorem looseItems_cons {item : Value} (hitem : item ≠ .null) (items : List Value) :
    looseItems (item :: items) =
      looseText item >>= fun text => (looseItems items).map fun texts => text :: texts := by
  have hmap (text : String) : ((looseItems items) >>= fun texts => pure (text :: texts)) =
      (looseItems items).map fun texts => text :: texts := by
    cases looseItems items <;> rfl
  cases item with
  | null => exact absurd rfl hitem
  | _ => simp only [looseItems, hmap]

mutual

/-- The loose text raises if there is none, and is otherwise the one that is defined. -/
theorem looseText_raises : ∀ v : Value, RaisesIf v.Textless (looseText v) v.looseText
  | .null => raisesIf_ok nofun _
  | .bool _ => raisesIf_ok nofun _
  | .int n => .inr ⟨nofun, looseInt_eq n⟩
  | .float x => .inr ⟨nofun, numberText_eq x⟩
  | .str _ => raisesIf_ok nofun _
  | .list items => ((looseItems_raises items).map _).congr Value.textless_list.symm
  | .tuple items => ((looseItems_raises items).map _).congr Value.textless_tuple.symm
  | .map _ => raisesIf_ok nofun _
  | .datetime _ => raisesIf_ok nofun _
  | .day _ => raisesIf_ok nofun _
  | .bytes _ => raisesIf_ok nofun _
  | .set _ => (raisesIf_raising _ _).congr (Value.text?_eq_none.trans Value.textless_set.symm)
  | .record _ => (raisesIf_raising _ _).congr (Value.text?_eq_none.trans Value.textless_record.symm)

theorem looseItems_raises : ∀ items : List Value,
    RaisesIf (∃ v ∈ items, v.Textless) (looseItems items) (Value.looseItems items)
  | [] => raisesIf_ok (by simp) _
  | item :: items => by
      have hrest := looseItems_raises items
      by_cases hitem : item = .null
      · subst hitem
        refine (hrest.map ("" :: ·)).congr ?_
        rw [List.exists_mem_cons_iff, or_iff_right nofun]
      · have hlist : Value.looseItems (item :: items) = item.looseText :: Value.looseItems items := by
          cases item with
          | null => exact absurd rfl hitem
          | _ => rfl
        rw [looseItems_cons hitem, hlist, List.exists_mem_cons_iff]
        exact (looseText_raises item).bind (hrest.map (item.looseText :: ·))

end

theorem looseText_eq (v : Value) (h : v.hasTexts = true) : looseText v = .ok v.looseText :=
  (looseText_raises v).eq_ok (Value.not_textless_of_hasTexts h)

/-- The attempt gives what there is, and where there is nothing it raises what a message handles. -/
inductive Matches : Attempt α → Option α → Prop
  | found (a : α) : Matches (.ok a) (some a)
  | missing {kind : FaultKind} : kind ≠ .overflow → Matches (.error (.operation kind)) none

theorem matches_raising (o : Option α) : Matches (raising .value o) o := by
  cases o with
  | some a => exact .found a
  | none => exact .missing nofun

theorem Matches.bind {x : Attempt α} {o : Option α} {f : α → Attempt β} {g : α → Option β}
    (h : Matches x o) (hnext : ∀ a, Matches (f a) (g a)) : Matches (x >>= f) (o >>= g) := by
  cases h with
  | found a => exact hnext a
  | missing hkind => exact .missing hkind

theorem Matches.map {x : Attempt α} {o : Option α} (h : Matches x o) (f : α → β) :
    Matches (x.map f) (o.map f) := by
  cases h with
  | found a => exact .found (f a)
  | missing hkind => exact .missing hkind

theorem matches_jsonKey (key : Value) : Matches (jsonKey key) key.jsonKey? := by
  cases key with
  | null | bool b | float x | str s => exact .found _
  | int n => exact matches_raising (Numeral.decimal? n)
  | _ => exact .missing nofun

mutual

theorem matches_jsonText (v : Value) : Matches (jsonText v) v.json? := by
  cases v with
  | null | bool b | float x | str s | datetime t | day ordinal | bytes bs => exact .found _
  | int n => exact matches_raising (Numeral.decimal? n)
  | list items => exact (matches_jsonItems items).map _
  | tuple items => exact (matches_jsonItems items).map _
  | map entries => exact (matches_jsonEntries entries).map _
  | set items => exact (matches_raising (Value.set items).text?).map Text.jsonString
  | record attributes => exact (matches_raising (Value.record attributes).text?).map Text.jsonString

theorem matches_jsonItems (items : List Value) : Matches (jsonItems items) (Value.jsonItems? items) := by
  cases items with
  | nil => exact .found []
  | cons item items =>
      exact (matches_jsonText item).bind fun _ => (matches_jsonItems items).bind fun _ => .found _

theorem matches_jsonEntries (entries : List (Value × Value)) :
    Matches (jsonEntries entries) (Value.jsonEntries? entries) := by
  match entries with
  | [] => exact .found []
  | (key, value) :: entries =>
      exact (matches_jsonKey key).bind fun _ => (matches_jsonText value).bind fun _ =>
        (matches_jsonEntries entries).bind fun _ => .found _

end

/-- Whatever the value, its text for a message is made without a fault. -/
theorem render_eq (v : Value) : render v = .ok v.render := by
  have hjson := matches_jsonText v
  have hwritten := handling_raising (List.mem_singleton_self FaultKind.value) v.written? v.tooLargeText
  rw [render, hwritten, Value.render]
  cases hv : v.json? with
  | some text =>
      rw [hv] at hjson
      generalize jsonText v = x at hjson
      cases hjson with
      | found => rfl
  | none =>
      rw [hv] at hjson
      generalize jsonText v = x at hjson
      cases hjson with
      | @missing kind hkind =>
          have hmem : kind ∈ [FaultKind.type, FaultKind.value] := by
            cases kind with
            | overflow => exact absurd rfl hkind
            | _ => decide
          exact if_pos hmem

theorem fail_eq (label : String) (v : Value) :
    (fail label v : Attempt α) = .error (.mismatch ⟨label, v⟩) := by
  rw [fail, render_eq, ok_bind]

/-! ### Numbers and times -/

theorem readInt_eq (cs : List Char) : readInt cs = .ok (Value.readInt? cs) := by
  simp only [readInt, Value.readInt?]
  split
  · rfl
  · split
    · rename_i hempty
      simp only [hempty, true_or, if_true]
    · rename_i hdigits
      simp only [hdigits, false_or, ofDigits]
      split
      · rfl
      · rfl

theorem toInt_raises (v : Value) : RaisesIf v.Textless (toInt v) v.toInt? := by
  have htext := (looseText_raises v).bind_ok (f := fun text => readInt text.toList)
    (readInt_eq v.looseText.toList)
  cases v with
  | int n => exact raisesIf_ok nofun _
  | _ => exact htext

theorem toInt_eq {v : Value} (h : v.hasTexts = true) : toInt v = .ok v.toInt? :=
  (toInt_raises v).eq_ok (Value.not_textless_of_hasTexts h)

theorem toDouble_raises (v : Value) : RaisesIf v.Textless (toDouble v) v.toDouble? := by
  have htext := (looseText_raises v).map fun text => Value.readFloat? text.toList
  cases v with
  | float x => exact raisesIf_ok nofun _
  | _ => exact htext

theorem toDouble_eq {v : Value} (h : v.hasTexts = true) : toDouble v = .ok v.toDouble? :=
  (toDouble_raises v).eq_ok (Value.not_textless_of_hasTexts h)

/-- The calendar ends long before the range that is tested. -/
theorem ofMillis?_eq_none {millis : Int} (h : maxMillis ≤ millis.natAbs) :
    DateTime.ofMillis? millis = none := by
  rw [DateTime.ofMillis?, DateTime.ofTicks?, dif_neg]
  simp only [maxMillis] at h
  simp only [DateTime.epoch, microsOfCalendar, Calendar.dayCount, microsPerDay]
  omega

/-- A double beyond a whole number has a whole part at least as large. -/
theorem le_natAbs_of_truncate? {x : Double} {n : Nat} {millis : Int} (hn : n ≠ 0) (hsmall : n < 2 ^ 53)
    (hbeyond : x.absLe (Double.nearest false n 1) = false) (hx : x.truncate? = some millis) :
    n ≤ millis.natAbs := by
  cases x with
  | nan => cases hx
  | infinite negative => cases hx
  | finite negative m e canonical =>
      have hlog : n.log2 ≤ 52 := by
        have := (Nat.log2_lt hn).mpr hsmall
        omega
      have hneg : (-((n.log2 : Int) - 52)).toNat = 52 - n.log2 := by omega
      have hpos : ((n.log2 : Int) - 52).toNat = 0 := by omega
      rw [Double.nearest_whole false hn hsmall] at hbeyond
      simp only [Double.absLe, decide_eq_false_iff_not, Nat.not_le, Double.num, Double.den, hneg, hpos,
        Nat.pow_zero, Nat.mul_one] at hbeyond
      have hscaled : n * Double.den e * 2 ^ (52 - n.log2) < Double.num m e * 2 ^ (52 - n.log2) := by
        rw [Nat.mul_right_comm]
        exact hbeyond
      have hless : n * Double.den e < Double.num m e := Nat.lt_of_mul_lt_mul_right hscaled
      have hwhole : n ≤ Double.num m e / Double.den e :=
        (Nat.le_div_iff_mul_le (Nat.two_pow_pos _)).mpr (Nat.le_of_lt hless)
      have hsign := Option.some.inj hx
      generalize Double.num m e / Double.den e = whole at hwhole hsign
      split at hsign <;> omega

/-- A time is given for the numbers for which there is one: the test excludes only what lies outside the
calendar, and the handler takes the rest of that. -/
theorem ofMillis_eq (x : Option Double) : ofMillis x = .ok (x.bind DateTime.ofMillisDouble?) := by
  cases x with
  | none => rfl
  | some x =>
      rw [ofMillis, Option.bind_some, DateTime.ofMillisDouble?]
      cases hx : x.truncate? with
      | none =>
          have hinfinite : x.isFinite = false := by
            cases x with
            | finite negative m e canonical => cases hx
            | _ => rfl
          simp only [hinfinite, Bool.not_false, Bool.true_or, if_true]
      | some millis =>
          have htruncate : truncate x = .ok millis := by
            cases x with
            | nan => cases hx
            | _ => exact congrArg (raising .overflow) hx
          by_cases hbeyond : x.absLe (Double.nearest false maxMillis 1) = false
          · have hfar := le_natAbs_of_truncate? (by decide) (by decide) hbeyond hx
            simp only [hbeyond, Bool.not_false, Bool.or_true, if_true, ofMillis?_eq_none hfar]
          · have hfinite : x.isFinite = true := by
              cases x with
              | finite negative m e canonical => rfl
              | _ => cases hx
            simp only [hfinite, Bool.not_eq_false] at hbeyond ⊢
            simp only [hbeyond, Bool.not_true, Bool.or_self, Bool.false_eq_true, if_false, htruncate, ok_bind]
            cases DateTime.ofMillis? millis <;> rfl

theorem secondsToDateTime_raises (v : Value) :
    RaisesIf v.Textless (secondsToDateTime v) v.secondsToDateTime? := by
  refine (toDouble_raises v).bind_ok ?_
  rw [ofMillis_eq, Value.secondsToDateTime?]
  cases v.toDouble? <;> rfl

theorem millisToDateTime_raises (v : Value) :
    RaisesIf v.Textless (millisToDateTime v) v.millisToDateTime? := by
  refine (toDouble_raises v).bind_ok ?_
  rw [ofMillis_eq, Value.millisToDateTime?]
  cases v.toDouble? <;> rfl

theorem ofIso_eq (cs : List Char) : ofIso cs = .ok (DateTime.ofIso? cs) := by
  rw [ofIso, DateTime.ofIso?]
  cases DateTime.readIso? cs with
  | none => rfl
  | some t =>
      simp only [raising_some, ok_bind]
      cases t.toUtc? <;> rfl

/-- Whatever has no text counts as true, so its text is asked for. -/
theorem isTruthy_of_textless {v : Value} (h : v.Textless) : v.isTruthy = true := by
  cases h with
  | set hlong =>
      cases hlong with
      | set hv _ => simp [Value.isTruthy, List.ne_nil_of_mem hv]
  | record _ => rfl
  | list hv _ | tuple hv _ => simp [Value.isTruthy, List.ne_nil_of_mem hv]

theorem isoToDateTime_raises (v : Value) : RaisesIf v.Textless (isoToDateTime v) v.isoToDateTime? := by
  rw [isoToDateTime, Value.isoToDateTime?]
  by_cases htruthy : v.isTruthy = true
  · rw [if_pos htruthy, if_pos htruthy]
    exact (looseText_raises v).bind_ok (ofIso_eq _)
  · rw [if_neg htruthy, if_neg htruthy]
    exact .inr ⟨fun h => htruthy (isTruthy_of_textless h), rfl⟩

end Attempt
end Wireform
