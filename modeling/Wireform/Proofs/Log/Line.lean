import Wireform.Log.Format
import Wireform.Proofs.Json.Reader

/-!
# What a line of a log says

A line says its record in full, in one of two forms: as a text for people, where a failure has a line of its
own, or as an object of texts that a reader of JSON finds again, on a single line.
-/
namespace Wireform.Log

/-! ### Objects of texts -/

namespace Entry

/-- An entry as an object of texts. -/
def object (e : Entry) : Value :=
  .map ((e.failure.map fun text => (.str "exception", .str text)).toList ++
    [(.str "level", .str e.level), (.str "logger", .str e.logger), (.str "message", .str e.message),
      (.str "timestamp", .str e.timestamp)])

theorem object_eq (e : Entry) : e.object = .ofPairs (e.fields.map fun f => (.str f.1, .str f.2)) := by
  obtain ⟨failure, level, logger, message, timestamp⟩ := e
  cases failure <;>
    simp [object, fields, Value.ofPairs, Value.distinct, Value.put, Value.sameKey]

/-- The keys of the object stand in the order of their letters. -/
theorem keys_sorted (e : Entry) : (e.fields.map Prod.fst).Pairwise fun name other => name < other := by
  obtain ⟨failure, level, logger, message, timestamp⟩ := e
  cases failure with
  | none =>
      change List.Pairwise _ ["level", "logger", "message", "timestamp"]
      decide
  | some text =>
      change List.Pairwise _ ["exception", "level", "logger", "message", "timestamp"]
      decide

theorem toList_json (e : Entry) :
    e.json.toList =
      '\x7b' :: (Json.membersText true (e.fields.map fun f => (f.1, Json.literal true f.2)) ++ ['\x7d']) := by
  have hfield (f : String × String) :
      (jsonField f.1 f.2).toList = Json.member true f.1 (Json.literal true f.2) := by
    simp [jsonField, Text.asciiJsonString, Json.member, Json.literal]
  have hfields : ((e.fields.map fun f => jsonField f.1 f.2).map String.toList) =
      ((e.fields.map fun f => (f.1, Json.literal true f.2)).map fun m => Json.member true m.1 m.2) := by
    rw [List.map_map, List.map_map]
    exact List.map_congr_left fun f _ => hfield f
  rw [json, String.toList_append, String.toList_append, String.toList_intercalate, hfields]
  rfl

/-- An entry is read as its object. -/
theorem read?_json (e : Entry) : Json.read? e.json = some e.object := by
  apply Json.IsReadAs.whole
  rw [toList_json, object_eq]
  apply Json.isReadAs_map
  rw [List.forall₂_map_left_iff, List.forall₂_map_right_iff]
  exact List.forall₂_same.mpr fun f _ => ⟨rfl, Json.isReadAs_literal true f.2⟩

theorem isVisible_json (e : Entry) : ∀ c ∈ e.json.toList, Json.IsVisible c := by
  have hmembers : ∀ c ∈ Json.membersText true (e.fields.map fun f => (f.1, Json.literal true f.2)),
      Json.IsVisible c := by
    apply Json.isVisible_separated
    intro part hpart
    obtain ⟨m, hm, rfl⟩ := List.mem_map.mp hpart
    obtain ⟨f, -, rfl⟩ := List.mem_map.mp hm
    exact Json.isVisible_member f.1 (Json.isVisible_literal f.2)
  rw [toList_json]
  intro c hc
  rw [List.mem_cons, List.mem_append, List.mem_singleton] at hc
  rcases hc with rfl | hc | rfl
  · decide
  · exact hmembers c hc
  · decide

theorem json_ne_empty (e : Entry) : e.json ≠ "" := by
  intro h
  have hlist := congrArg String.toList h
  rw [toList_json] at hlist
  cases hlist

end Entry

/-! ### Lines of records -/

/-- A name, and a text after it unless that is empty. -/
def titled (name text : String) : String :=
  if text = "" then name else name ++ ": " ++ text

/-- How a failure is shown: by its kind and its text. A missing key is quoted. -/
def Failure.shown (f : Failure) : String :=
  match f.kind with
  | .value => titled "ValueError" f.text
  | .key => "KeyError: " ++ Text.quote f.text
  | .config => titled "safe_portals.domain.errors.ConfigError" f.text

theorem quote_ne_empty (s : String) : Text.quote s ≠ "" := by
  intro h
  have hlist := congrArg String.toList h
  rw [Text.quote, String.toList_ofList] at hlist
  cases hlist

theorem Failure.written_eq (f : Failure) : f.written = f.shown := by
  obtain ⟨kind, text⟩ := f
  cases kind with
  | value | config => rfl
  | key => exact if_neg (quote_ne_empty text)

/-- A text for a record in a format. A plain one shows the logger and the message, and a failure on a line of its
own; one in JSON is read as an object, and has no break but the one at its end. -/
inductive IsLine (clock : String) (r : Record) : Format → String → Prop
  | plain : r.failure = none → IsLine clock r .plain (r.logger ++ ": " ++ r.message ++ "\n")
  | failed {f : Failure} : r.failure = some f →
      IsLine clock r .plain (r.logger ++ ": " ++ r.message ++ "\n" ++ f.shown ++ "\n")
  | json {object : String} : '\n' ∉ object.toList →
      Json.read? object = some (.map
        ((r.failure.map fun f => (.str "exception", .str f.shown)).toList ++
          [(.str "level", .str (levelName r.level)), (.str "logger", .str r.logger),
            (.str "message", .str r.message), (.str "timestamp", .str clock)])) →
      IsLine clock r .json (object ++ "\n")

theorem isLine_line (format : Format) (clock : String) (r : Record) :
    IsLine clock r format (r.line format clock) := by
  obtain ⟨level, logger, message, failure⟩ := r
  cases format with
  | plain =>
      cases failure with
      | none =>
          have htext : Record.line .plain clock ⟨level, logger, message, none⟩ =
              logger ++ ": " ++ message ++ "\n" := by
            simp [Record.line, Record.plain]
          exact htext ▸ .plain rfl
      | some f =>
          have htext : Record.line .plain clock ⟨level, logger, message, some f⟩ =
              logger ++ ": " ++ message ++ "\n" ++ f.shown ++ "\n" := by
            simp [Record.line, Record.plain, f.written_eq, String.append_assoc]
          exact htext ▸ .failed rfl
  | json =>
      refine .json (fun hbreak => absurd (Entry.isVisible_json _ _ hbreak) (by decide)) ?_
      rw [Entry.read?_json]
      cases failure with
      | none => rfl
      | some f =>
          rw [Record.entry, Entry.object, Option.map_some, f.written_eq]
          rfl

end Wireform.Log
