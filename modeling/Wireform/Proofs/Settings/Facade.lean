import Wireform.Settings.Attempt

/-!
# Settings that are raised or right

Reading settings by operations that raise is reading them as they are defined. Whatever is raised about a
document passes the handler, so it is the settings' own error. What is returned was checked: its bound is
positive if there is one, and its level is one of five, with the number that belongs to it.
-/
namespace Wireform

theorem Level.name_of_ofName? {name : String} {l : Level} (h : Level.ofName? name = some l) :
    l.name = name.map Level.capital := by
  have hname := List.find?_some h
  exact beq_iff_eq.mp hname

theorem Level.not_mem_of_ofName? {name : String} (h : Level.ofName? name = none) :
    name.map Level.capital ∉ Level.all.map Level.name := by
  intro hmem
  obtain ⟨l, hl, hname⟩ := List.mem_map.mp hmem
  exact absurd (beq_iff_eq.mpr hname) (List.find?_eq_none.mp h l hl)

namespace Settings

open Document (Cause Complaint)

variable {α β : Type}

/-! ### Checks -/

theorem allowedLevels_eq : allowedLevels = Level.all.map Level.name := by
  decide +kernel

theorem checkLevel_eq (v : Value) : Document.text v >>= checkLevel = (readLevel v).map Level.name := by
  unfold readLevel
  cases Document.text v with
  | error cause => rfl
  | ok name =>
      change checkLevel name = _
      simp only [checkLevel, allowedLevels_eq]
      cases hlevel : Level.ofName? name with
      | none =>
          rw [if_neg (Level.not_mem_of_ofName? hlevel)]
          rfl
      | some l =>
          have hmem : l ∈ Level.all := List.mem_of_find?_eq_some hlevel
          rw [← Level.name_of_ofName? hlevel, if_pos (List.mem_map_of_mem hmem)]
          rfl

theorem checkPositive_eq (v : Value) : optionalInt v >>= checkPositive = readDepth v := by
  by_cases hv : v = .null
  · rw [hv]
    rfl
  · rw [optionalInt.eq_2 v hv, readDepth.eq_2 v hv]
    cases Document.int v with
    | error cause => rfl
    | ok n =>
        change checkPositive (some n) = _
        by_cases hn : 1 ≤ n
        · simp only [checkPositive, if_pos hn, if_neg (show ¬ n < 1 by omega)]
        · have hlt : n < 1 := by omega
          cases hdecimal : Numeral.decimal? n <;> simp only [checkPositive, if_neg hn, if_pos hlt, hdecimal]

/-- Reading a field into something else is reading it and then making something else of it. -/
theorem field_map (f : α → β) (read : Value → Except Cause α) (usual : α) (place : List String)
    (entries : List (Value × Value)) :
    field (fun v => (read v).map f) (f usual) place entries = Prod.map f id (field read usual place entries) := by
  unfold field
  cases place.getLast? with
  | none => rfl
  | some name =>
      dsimp only
      cases Value.get? name entries with
      | none => rfl
      | some v =>
          dsimp only
          cases read v <;> rfl

/-! ### Settings and their facade -/

/-- Settings as they are handed on. -/
def facade (s : Settings) : Facade :=
  ⟨s.version, s.maxDepth, s.level.name, s.jsonFormat, s.schemasFile⟩

theorem fieldsOf_eq (entries : List (Value × Value)) :
    fieldsOf entries = ((ofEntries entries).map facade).mapError .fields := by
  have hdepth : (fun v => optionalInt v >>= checkPositive) = readDepth := funext checkPositive_eq
  have hlevel (logging : List (Value × Value)) :
      field (fun v => Document.text v >>= checkLevel) "WARNING" ["logging", "level"] logging =
        Prod.map Level.name id (field readLevel .warning ["logging", "level"] logging) := by
    simp only [checkLevel_eq]
    exact field_map Level.name readLevel .warning _ logging
  simp only [fieldsOf, ofEntries, hdepth, hlevel, Prod.map_fst, Prod.map_snd, id]
  generalize _ ++ (field Document.text "schemas.yaml" _ _).2 = complaints
  cases complaints <;> rfl

/-- What reading a document raises once the handler is passed. -/
theorem construct_eq (path : String) (entries : List (Value × Value)) :
    (construct entries).mapError (handling path) = ((ofDocument path (.map entries)).map facade).mapError .own := by
  rw [construct, ofDocument]
  split
  · rfl
  · rw [fieldsOf_eq]
    cases ofEntries entries <;> rfl

/-- The settings of a source. -/
def ofSource (path : String) (source : Except Document.FileFault Document.Shared) (word : String)
    (environment : Environment) : Except Fault Settings :=
  match source with
  | .error fault => .error (.unread path fault)
  | .ok document => ofDocument path (override word environment document).value

/-- A fault of settings as what is raised. Of the files that cannot be read, only a missing one is the
settings' own error. -/
def Raised.ofFault : Fault → Raised
  | .unread path .missing => .own (.unread path .missing)
  | .unread _ fault => .file fault
  | fault => .own fault

/-- A document gives the settings of its entries, or else a fault that is the settings' own error. -/
theorem ofDocument_outcome (path : String) (v : Value) :
    (∃ entries s, v = .map entries ∧ ofEntries entries = .ok s ∧ ofDocument path v = .ok s) ∨
      ∃ fault, ofDocument path v = .error fault ∧ Raised.ofFault fault = .own fault := by
  cases v with
  | map entries =>
      by_cases hkeys : (!(Document.badKeys entries).isEmpty) = true
      · exact .inr ⟨.notFields path, if_pos hkeys, rfl⟩
      · have h : ofDocument path (.map entries) = (ofEntries entries).mapError (.invalid path) := if_neg hkeys
        cases hentries : ofEntries entries with
        | ok s =>
            rw [hentries] at h
            exact .inl ⟨entries, s, rfl, hentries, h⟩
        | error complaints =>
            rw [hentries] at h
            exact .inr ⟨.invalid path complaints, h, rfl⟩
  | _ => exact .inr ⟨.notMap path, rfl, rfl⟩

theorem mapError_ofDocument (path : String) (v : Value) :
    ((ofDocument path v).map facade).mapError Raised.ofFault =
      ((ofDocument path v).map facade).mapError .own := by
  rcases ofDocument_outcome path v with ⟨_, s, -, -, h⟩ | ⟨fault, h, hown⟩
  · rw [h]
    rfl
  · rw [h]
    exact congrArg Except.error hown

/-- Reading settings by operations that raise is reading them. -/
theorem load_eq (path : String) (source : Except Document.FileFault Document.Shared) (word : String)
    (environment : Environment) :
    Facade.load path source word environment =
      ((ofSource path source word environment).map facade).mapError Raised.ofFault := by
  cases source with
  | error fault => cases fault <;> rfl
  | ok document =>
      simp only [Facade.load, ofSource, mapError_ofDocument]
      cases (override word environment document).value with
      | map entries => exact construct_eq path entries
      | _ => rfl

/-- A text from the environment is a bound as well, and a level in small letters. -/
example :
    let document := ⟨⟨#[.map [(.str "version", .value (.int 1)), (.str "decode", .value (.int 5))]]⟩, .cell 0⟩
    let environment := [("P__DECODE__MAX_DEPTH", "8"), ("P__LOGGING__LEVEL", "debug")]
    (Facade.load "settings" (.ok document) "P" environment).toOption.map (fun f => (f.maxDepth, f.level)) =
      some (some 8, "DEBUG") := by
  decide +kernel

/-! ### What is raised -/

/-- Only a file that is there and cannot be read raises anything but the settings' own error. -/
theorem raised_of_ofSource {path : String} {source : Except Document.FileFault Document.Shared} {word : String}
    {environment : Environment} {fault : Fault} (h : ofSource path source word environment = .error fault) :
    (∃ own, Raised.ofFault fault = .own own) ∨
      ∃ unread, source = .error unread ∧ unread ≠ .missing ∧ Raised.ofFault fault = .file unread := by
  cases source with
  | ok document =>
      rcases ofDocument_outcome path (override word environment document).value with
        ⟨_, s, -, -, hok⟩ | ⟨fault', herror, hown⟩
      · cases h.symm.trans hok
      · cases h.symm.trans herror
        exact .inl ⟨fault, hown⟩
  | error unread =>
      cases h
      cases unread with
      | missing => exact .inl ⟨_, rfl⟩
      | folder | tooLong | yaml => exact .inr ⟨_, rfl, nofun, rfl⟩

/-! ### What is returned -/

theorem field_fst {P : α → Prop} {read : Value → Except Cause α} (hread : ∀ v a, read v = .ok a → P a)
    {usual : α} (husual : P usual) (place : List String) (entries : List (Value × Value)) :
    P (field read usual place entries).1 := by
  unfold field
  split
  · exact husual
  · split
    · exact husual
    · split
      · exact hread _ _ ‹_›
      · exact husual

theorem positive_of_readDepth (v : Value) (maxDepth : Option Int) (h : readDepth v = .ok maxDepth) :
    ∀ bound, maxDepth = some bound → 1 ≤ bound := by
  rintro bound rfl
  unfold readDepth at h
  split at h
  · cases h
  · split at h
    · cases h
    · split at h
      · cases h
        assumption
      · cases h

/-- A bound that was read is positive. -/
theorem positive_of_ofEntries {entries : List (Value × Value)} {s : Settings} (h : ofEntries entries = .ok s) :
    ∀ bound, s.maxDepth = some bound → 1 ≤ bound := by
  simp only [ofEntries] at h
  split at h
  · cases h
    exact field_fst (P := fun d => ∀ bound, d = some bound → 1 ≤ bound) positive_of_readDepth (by simp) _ _
  · cases h

theorem positive_of_ofSource {path : String} {source : Except Document.FileFault Document.Shared}
    {word : String} {environment : Environment} {s : Settings}
    (h : ofSource path source word environment = .ok s) :
    ∀ bound, s.maxDepth = some bound → 1 ≤ bound := by
  cases source with
  | error fault => cases h
  | ok document =>
      rcases ofDocument_outcome path (override word environment document).value with
        ⟨_, s', -, hentries, hok⟩ | ⟨fault, herror, -⟩
      · cases h.symm.trans hok
        exact positive_of_ofEntries hentries
      · cases h.symm.trans herror

theorem levelNumber_name (l : Level) : levelNumber l.name = .inl l.number := by
  cases l <;> decide +kernel

theorem mem_levels (l : Level) : (l.name, l.number) ∈
    [("DEBUG", 10), ("INFO", 20), ("WARNING", 30), ("ERROR", 40), ("CRITICAL", (50 : Int))] := by
  cases l <;> decide +kernel

end Settings
end Wireform
