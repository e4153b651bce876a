import Wireform.Proofs.Log.Configuration

/-!
# JSON lines that are read back

What a handler with the JSON format writes over a run is in ASCII alone and falls apart at its line breaks into
one line for each record, whatever characters the record has. Each line is read as an object of the texts of
its record.
-/
namespace Wireform.Log

/-- Lines with a break after each of them fall apart into the lines, and nothing after the last break. -/
theorem splitOn_lines {lines : List (List Char)} (h : ∀ line ∈ lines, '\n' ∉ line) :
    (lines.flatMap fun line => line ++ ['\n']).splitOn '\n' = lines ++ [[]] := by
  have hjoin : (lines.flatMap fun line => line ++ ['\n']) = ['\n'].intercalate (lines ++ [[]]) := by
    clear h
    induction lines with
    | nil => rfl
    | cons line lines ih =>
        rw [List.flatMap_cons, ih, List.cons_append, List.intercalate_cons_of_ne_nil (by simp)]
  rw [hjoin]
  apply List.splitOn_intercalate
  · intro line hline
    rcases List.mem_append.mp hline with hline | hline
    · exact h line hline
    · rw [List.mem_singleton.mp hline]
      exact List.not_mem_nil
  · simp

/-- The text is in ASCII, without controls apart from line breaks. Split at these it has one line for each
entry, and nothing after the last break; none of the lines is empty, and each is read as the object of its
entry. -/
structure IsLogOf (text : String) (entries : List Entry) : Prop where
  ascii : ∀ c ∈ text.toList, c = '\n' ∨ Json.IsVisible c
  lines : ∃ lines : List String, text.toList.splitOn '\n' = lines.map String.toList ++ [[]] ∧
    List.Forall₂ (fun line e => line ≠ "" ∧ Json.read? line = some e.object) lines entries

/-- The text that entries make, with a break after each of them. -/
def jsonLines (entries : List Entry) : String :=
  String.join (entries.map fun e => e.json ++ "\n")

theorem toList_jsonLines (entries : List Entry) :
    (jsonLines entries).toList = (entries.map fun e => e.json.toList).flatMap fun line => line ++ ['\n'] := by
  rw [jsonLines, String.toList_join, List.flatMap_map, List.flatMap_map]
  exact List.flatMap_congr fun e _ => String.toList_append

/-- Whatever the entries, one line after the other is a log of them. -/
theorem isLogOf_jsonLines (entries : List Entry) : IsLogOf (jsonLines entries) entries := by
  constructor
  · intro c hc
    rw [toList_jsonLines, List.flatMap_map, List.mem_flatMap] at hc
    obtain ⟨e, -, hc⟩ := hc
    rcases List.mem_append.mp hc with hc | hc
    · exact .inr (e.isVisible_json c hc)
    · exact .inl (List.mem_singleton.mp hc)
  · have hlines : ∀ line ∈ entries.map (fun e => e.json.toList), '\n' ∉ line := by
      intro line hline hbreak
      obtain ⟨e, -, rfl⟩ := List.mem_map.mp hline
      exact absurd (e.isVisible_json _ hbreak) (by decide)
    refine ⟨entries.map Entry.json, ?_, ?_⟩
    · rw [toList_jsonLines, splitOn_lines hlines, List.map_map]
      rfl
    · rw [List.forall₂_map_left_iff]
      exact List.forall₂_same.mpr fun e _ => ⟨e.json_ne_empty, e.read?_json⟩

namespace Logger

variable {ι : Type}

/-- What the handlers are given over a run: the records that are accepted, at their times. -/
def accepted (l : Logger ι) : List (Event ι) → List Entry
  | [] => []
  | .log clock r :: events =>
    (if (l.know r.logger).accepts r then [r.entry clock] else []) ++ (l.know r.logger).accepted events
  | e :: events => (l.step e).1.accepted events

/-- Only the events that configure change the handlers. -/
theorem handlers_step {l : Logger ι} {e : Event ι} (he : e.configures? = none) :
    (l.step e).1.handlers = l.handlers := by
  cases e with
  | configure => cases he
  | know name => exact l.handlers_know name
  | log clock r => exact l.handlers_know r.logger

/-- A step of a logger with one handler in JSON writes a line for a record that is accepted. -/
theorem textOn_step [DecidableEq ι] {l : Logger ι} {stream : ι} (hhandlers : l.handlers = [⟨stream, .json⟩])
    (e : Event ι) (events : List (Event ι)) :
    textOn stream (l.step e).2 ++ jsonLines ((l.step e).1.accepted events) =
      jsonLines (l.accepted (e :: events)) := by
  cases e with
  | configure => exact String.empty_append
  | know name => exact String.empty_append
  | log clock r =>
      have hwritten : (l.step (.log clock r)).2 =
          if (l.know r.logger).accepts r then [⟨stream, r.line .json clock⟩] else [] := by
        rw [step, write, l.handlers_know, hhandlers]
        rfl
      rw [hwritten, accepted]
      split
      · simp [textOn, step, jsonLines, Record.line]
      · exact String.empty_append

theorem textOn_run [DecidableEq ι] {l : Logger ι} {stream : ι} (hhandlers : l.handlers = [⟨stream, .json⟩])
    {events : List (Event ι)} (hevents : ∀ e ∈ events, e.configures? = none) :
    textOn stream (l.run events).2.flatten = jsonLines (l.accepted events) := by
  induction events generalizing l with
  | nil => rfl
  | cons e events ih =>
      rw [List.forall_mem_cons] at hevents
      have hrest := ih ((handlers_step hevents.1).trans hhandlers) hevents.2
      have hsplit (outputs more : List (Output ι)) :
          textOn stream (outputs ++ more) = textOn stream outputs ++ textOn stream more := by
        simp [textOn]
      rw [run, List.flatten_cons, hsplit, hrest, textOn_step hhandlers]

/-- Any texts in JSON, one line after the other, can be split and read back: the lines are in ASCII, fall apart at
their breaks into one line for each entry, and each line is read as the texts of its entry under keys in the order of
their letters, with or without a failure. This is what a handler in JSON writes to its stream over any run, for the
records that come to it. -/
theorem json_lines_read [DecidableEq ι] {l : Logger ι} {stream : ι} {events : List (Event ι)}
    (hhandlers : l.handlers = [⟨stream, .json⟩]) (hevents : ∀ e ∈ events, e.configures? = none) :
    IsLogOf (textOn stream (l.run events).2.flatten) (l.accepted events) ∧
      (∀ entries : List Entry, IsLogOf (jsonLines entries) entries) ∧
      ∀ e : Entry, (e.fields.map Prod.fst).Pairwise (fun name other => name < other) ∧
        e.object = .map (e.fields.map fun f => (.str f.1, .str f.2)) := by
  refine ⟨?_, isLogOf_jsonLines, fun e => ⟨e.keys_sorted, ?_⟩⟩
  · rw [textOn_run hhandlers hevents]
    exact isLogOf_jsonLines _
  · obtain ⟨failure, level, logger, message, timestamp⟩ := e
    cases failure <;> rfl

/-- A record with a line break, marks and characters of two planes, and one with nothing of that. -/
def oddRun : List (Event Bool) :=
  [.log "T" ⟨warning, unionsLogger, "a\nb \x22c\x22 \\ é 😀", some ⟨.key, "\t"⟩⟩, .know "other", .log "T" loaded]

theorem json_lines_read_odd :
    IsLogOf (textOn true ((fresh.configure info .json true).run oddRun).2.flatten)
      [⟨some "KeyError: '\\t'", "WARNING", unionsLogger, "a\nb \x22c\x22 \\ é 😀", "T"⟩, loaded.entry "T"] := by
  have hevents : ∀ e ∈ oddRun, e.configures? = none := by
    simp [oddRun, Event.configures?]
  have haccepted : (fresh.configure info .json true).accepted oddRun =
      [⟨some "KeyError: '\\t'", "WARNING", unionsLogger, "a\nb \x22c\x22 \\ é 😀", "T"⟩, loaded.entry "T"] := by
    decide +kernel
  have hlog := (json_lines_read (l := fresh.configure info .json true) rfl hevents).1
  rwa [haccepted] at hlog

end Logger
end Wireform.Log
