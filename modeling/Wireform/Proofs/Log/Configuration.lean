import Wireform.Proofs.Log.Hierarchy
import Wireform.Proofs.Log.Line
import Mathlib.Data.List.Induction

/-!
# Configuration over whole runs

Whatever was configured and logged before, the package logger has the level and the one handler that were
configured last, and none before anything is configured. So every record is written once or not at all: once,
by that handler, if its logger is the package logger or below it and its level reaches the configured one. All
levels are positive here, since a level of zero stands for the level of a warning.
-/
namespace Wireform.Log

variable {ι : Type}

/-- The level and the handler that an event gives to the package logger. -/
def Event.configures? : Event ι → Option (Int × Handler ι)
  | configure level format stream => some (level, ⟨stream, format⟩)
  | _ => none

def Event.Positive : Event ι → Prop
  | configure level _ _ => 1 ≤ level
  | know _ => True
  | log _ r => 1 ≤ r.level

/-- What was configured last. -/
def configured? (events : List (Event ι)) : Option (Int × Handler ι) :=
  (events.filterMap Event.configures?).getLast?

/-- `IsDue names c e outputs`: the outputs are what is to be written at an event under a configuration. It is one
line in the configured format, on the configured stream, for a record at or below the package logger that reaches
the level, and nothing otherwise. -/
def IsDue (names : List String) : Option (Int × Handler ι) → Event ι → List (Output ι) → Prop
  | some (level, h), .log clock r, outputs =>
    (Below names r.logger ∧ level ≤ r.level →
      ∃ text, IsLine clock r h.format text ∧ outputs = [⟨h.stream, text⟩]) ∧
      (¬ (Below names r.logger ∧ level ≤ r.level) → outputs = [])
  | _, _, outputs => outputs = []

theorem configured?_append (before : List (Event ι)) (e : Event ι) :
    configured? (before ++ [e]) = e.configures?.or (configured? before) := by
  rw [configured?, List.filterMap_append, List.getLast?_append]
  cases e <;> rfl

/-- A configuration by events with positive levels has a positive level. -/
theorem one_le_of_configured? {events : List (Event ι)} (hpositive : ∀ e ∈ events, e.Positive)
    {level : Int} {h : Handler ι} (hconfigured : configured? events = some (level, h)) : 1 ≤ level := by
  obtain ⟨e, he, hlevel⟩ := List.mem_filterMap.mp (List.mem_of_getLast? hconfigured)
  cases e with
  | configure =>
      cases hlevel
      exact hpositive _ he
  | _ => cases hlevel

namespace Logger

/-! ### What configuring does -/

/-- The loop over the handlers takes away the first one that is left, again and again. -/
theorem removeHandlers_eq (l : Logger ι) : l.removeHandlers = { l with attached := [] } := by
  obtain ⟨level, attached, made, names⟩ := l
  have hloop : ∀ attached : List (Nat × Handler ι),
      (attached.map Prod.fst).foldl removeHandler ⟨level, attached, made, names⟩ =
        ⟨level, [], made, names⟩ := by
    intro attached
    induction attached with
    | nil => rfl
    | cons a attached ih =>
        have hfirst : removeHandler ⟨level, a :: attached, made, names⟩ a.1 =
            ⟨level, attached, made, names⟩ := by
          rw [removeHandler, List.eraseP_cons_of_pos (by simp)]
        rw [List.map_cons, List.foldl_cons, hfirst, ih]
  exact hloop attached

/-- One handler is left, which is new, and the level is set. -/
theorem configure_eq (level : Int) (format : Format) (stream : ι) (l : Logger ι) :
    l.configure level format stream = ⟨level, [(l.made, ⟨stream, format⟩)], l.made + 1, l.names⟩ := by
  rw [configure, removeHandlers_eq]
  rfl

theorem handlers_configure (level : Int) (format : Format) (stream : ι) (l : Logger ι) :
    (l.configure level format stream).handlers = [⟨stream, format⟩] := by
  rw [configure_eq]
  rfl

theorem level_configure (level : Int) (format : Format) (stream : ι) (l : Logger ι) :
    (l.configure level format stream).level = level := by
  rw [configure_eq]

theorem names_configure (level : Int) (format : Format) (stream : ι) (l : Logger ι) :
    (l.configure level format stream).names = l.names := by
  rw [configure_eq]

/-! ### Runs -/

/-- The logger has the level and the one handler of a configuration, or no handler if there is none. -/
def Follows (l : Logger ι) : Option (Int × Handler ι) → Prop
  | none => l.handlers = []
  | some (level, h) => l.level = level ∧ l.handlers = [h]

theorem level_know (l : Logger ι) (name : String) : (l.know name).level = l.level := by
  unfold know
  split <;> rfl

theorem handlers_know (l : Logger ι) (name : String) : (l.know name).handlers = l.handlers := by
  unfold know
  split
  · rfl
  · rfl

theorem mem_names_know {l : Logger ι} {known : String} (h : known ∈ l.names) (name : String) :
    known ∈ (l.know name).names := by
  unfold know
  split
  · exact h
  · exact List.mem_cons_of_mem _ h

theorem Follows.know {l : Logger ι} {c : Option (Int × Handler ι)} (h : l.Follows c) (name : String) :
    (l.know name).Follows c := by
  cases c with
  | none => exact (l.handlers_know name).trans h
  | some c => exact ⟨(l.level_know name).trans h.1, (l.handlers_know name).trans h.2⟩

/-- An event leaves the logger with what it configures, or else with what was configured before. -/
theorem Follows.step {l : Logger ι} {before : List (Event ι)} (h : l.Follows (configured? before))
    (e : Event ι) : (l.step e).1.Follows (configured? (before ++ [e])) := by
  rw [configured?_append]
  cases e with
  | configure level format stream =>
      exact ⟨level_configure level format stream l, handlers_configure level format stream l⟩
  | know name => exact h.know name
  | log clock r => exact h.know r.logger

theorem mem_names_step {l : Logger ι} {known : String} (h : known ∈ l.names) (e : Event ι) :
    known ∈ (l.step e).1.names := by
  cases e with
  | configure level format stream =>
      rw [step, names_configure]
      exact h
  | know name => exact mem_names_know h name
  | log clock r => exact mem_names_know h r.logger

/-- A step writes what is due under the configuration that the logger follows. -/
theorem Follows.output_step {l : Logger ι} {c : Option (Int × Handler ι)} (h : l.Follows c)
    (hlevel : ∀ level handler, c = some (level, handler) → 1 ≤ level) {e : Event ι} (he : e.Positive) :
    IsDue (l.step e).1.names c e (l.step e).2 := by
  cases e with
  | configure => cases c <;> rfl
  | know name => cases c <;> rfl
  | log clock r =>
      have hfollows := h.know r.logger
      have hrecord : 1 ≤ r.level := he
      simp only [Logger.step]
      generalize l.know r.logger = m at hfollows
      cases c with
      | none =>
          have hnone : m.handlers = [] := hfollows
          simp [write, IsDue, hnone]
      | some c =>
          obtain ⟨level, handler⟩ := c
          obtain ⟨hm, hhandlers⟩ := hfollows
          have hpositive := hlevel _ _ rfl
          have hthreshold : m.threshold = level := by
            rw [threshold, hm, if_neg (by omega)]
          have haccepts : m.accepts r = true ↔ Below m.names r.logger ∧ level ≤ r.level := by
            rw [accepts, Bool.and_eq_true, isOfPackage_iff (Nat.lt_succ_self _), decide_eq_true_iff,
              hthreshold]
            exact and_congr_right' ⟨And.right, fun hreaches => ⟨by omega, hreaches⟩⟩
          constructor
          · intro hdue
            refine ⟨r.line handler.format clock, isLine_line handler.format clock r, ?_⟩
            rw [write, if_pos (haccepts.mpr hdue), hhandlers]
            rfl
          · intro hskipped
            rw [write, if_neg fun haccepted => hskipped (haccepts.mp haccepted)]

theorem run_append (l : Logger ι) (before after : List (Event ι)) :
    l.run (before ++ after) =
      (((l.run before).1.run after).1, (l.run before).2 ++ ((l.run before).1.run after).2) := by
  induction before generalizing l with
  | nil => rfl
  | cons e before ih => simp only [List.cons_append, run, ih]

theorem length_output_run (l : Logger ι) (events : List (Event ι)) :
    (l.run events).2.length = events.length := by
  induction events generalizing l with
  | nil => rfl
  | cons e events ih => simp only [run, List.length_cons, ih]

/-- A run of events leaves the logger with what was configured last. -/
theorem Follows.run {l : Logger ι} (h : l.Follows none) (events : List (Event ι)) :
    (l.run events).1.Follows (configured? events) := by
  induction events using List.reverseRecOn with
  | nil => exact h
  | append_singleton before e ih =>
      rw [run_append]
      exact ih.step e

theorem mem_names_run {l : Logger ι} {known : String} (h : known ∈ l.names) (events : List (Event ι)) :
    known ∈ (l.run events).1.names := by
  induction events generalizing l with
  | nil => exact h
  | cons e events ih => exact ih (mem_names_step h e)

/-- What is written at an event is what the event writes after those before it. -/
theorem getElem?_output_run (l : Logger ι) (before after : List (Event ι)) (e : Event ι) :
    (l.run (before ++ e :: after)).2[before.length]? = some ((l.run before).1.step e).2 := by
  have hlength := l.length_output_run before
  rw [run_append, List.getElem?_append_right (Nat.le_of_eq hlength), hlength, Nat.sub_self]
  rfl

def loaded : Record := ⟨info, registryLogger, "loaded", none⟩

/-- A record, and the same record after the level was raised and the stream changed. -/
def reconfigured : List (Event String) :=
  [.configure info .plain "first", .log "T" loaded, .configure warning .json "second", .log "T" loaded]

end Logger
end Wireform.Log
