import Wireform.App
import Wireform.Proofs.Log.Configuration
import Wireform.Proofs.Settings.Facade
import Wireform.Proofs.Yields

/-!
# Applications and their settings

Starting an application by operations that raise is starting it. So either the settings are refused, and then
nothing has been changed, or they are right, and the logger has their level and the registry their bound.
-/
namespace Wireform

/-- The bound on the depth takes no part in loading. -/
theorem Registry.ofFile_eq (maxDepth : Option Int) (path : String) (file : Document.File) :
    ofFile maxDepth path file =
      ((ofFile none path file).1.map fun r => { r with maxDepth := maxDepth }, (ofFile none path file).2) := by
  unfold ofFile
  cases file.document with
  | error fault => rfl
  | ok document =>
      dsimp only
      cases document.value with
      | map entries =>
          dsimp only [ofDocument]
          cases (loadSchemas (.map entries)).run.run ⟨[], []⟩ with
          | mk result progress => cases result <;> rfl
      | _ => rfl

namespace App

open Settings (Facade)

variable {ι : Type}

/-! ### Steps -/

/-- With the number of a level, the logger is configured in full. -/
theorem run_configureLogging (n : Int) (jsonFormat : Bool) (stream : ι) (w : World ι) :
    (configureLogging (.inl n) jsonFormat stream).run.run w =
      (.ok (), { w with logger := w.logger.configure n (if jsonFormat then .json else .plain) stream }) := rfl

theorem run_loadRegistry (maxDepth : Option Int) (path : String) (file : Document.File) (w : World ι) :
    (loadRegistry maxDepth path file).run.run w =
      ((Registry.ofFile maxDepth path file).1.mapError .registry,
        { w with log := w.log ++ (Registry.ofFile maxDepth path file).2 }) := by
  unfold loadRegistry
  cases Registry.ofFile maxDepth path file with
  | mk result log => cases result <;> rfl

section

variable {files : String → Document.File} {directory path word : String}
  {source : Except Document.FileFault Document.Shared} {environment : Settings.Environment} {stream : ι}

theorem run_create_error {e : Settings.Raised}
    (h : Facade.load path source word environment = .error e) (w : World ι) :
    (create files directory path word source environment stream).run.run w = (.error (.settings e), w) := by
  rw [create, h]
  rfl

/-- With settings that can be read, the logger is configured from them, whatever becomes of the registry. -/
theorem run_create_ok {s : Settings} (h : Settings.ofSource path source word environment = .ok s) (w : World ι) :
    (create files directory path word source environment stream).run.run w =
      ((Registry.ofFile s.maxDepth (s.schemasPath directory) (files (s.schemasPath directory))).1.mapError
          .registry,
        ⟨w.logger.configure s.level.number s.logFormat stream, w.log ++
          (Registry.ofFile s.maxDepth (s.schemasPath directory) (files (s.schemasPath directory))).2⟩) := by
  have hload : Facade.load path source word environment = .ok s.facade := by
    rw [Settings.load_eq, h]
    rfl
  have hlevel : s.facade.logLevel = .inl s.level.number := Settings.levelNumber_name s.level
  rw [create, hload]
  simp only [hlevel]
  rw [run_bind, run_configureLogging]
  exact run_loadRegistry _ _ _ _

end

/-- A fault as what is raised. -/
def Raised.ofFault : Fault → Raised
  | .settings fault => .settings (Settings.Raised.ofFault fault)
  | .registry fault => .registry fault

/-- Starting by operations that raise is starting. -/
theorem create_eq_start (files : String → Document.File) (directory path word : String)
    (environment : Settings.Environment) (stream : ι) (logger : Log.Logger ι) :
    (create files directory path word (files path).document environment stream).run.run ⟨logger, []⟩ =
      ((start files directory path word environment stream logger).result.mapError Raised.ofFault,
        ⟨(start files directory path word environment stream logger).logger,
          (start files directory path word environment stream logger).log⟩) := by
  have hstart : Settings.load path (files path) word environment =
      Settings.ofSource path (files path).document word environment := rfl
  unfold start
  rw [hstart]
  cases h : Settings.ofSource path (files path).document word environment with
  | error fault =>
      refine (run_create_error (e := Settings.Raised.ofFault fault) ?_ _).trans rfl
      rw [Settings.load_eq, h]
      rfl
  | ok s =>
      rw [run_create_ok h]
      simp only [List.nil_append]
      congr 1
      cases (Registry.ofFile _ _ _).1 <;> rfl

/-- No source of settings gives settings that are not right. For every document, environment and word either the
settings are refused with their own error, and the world is as it was; or the bound is none or positive, the level
is one of five names and has the number that belongs to it, the package logger has that level and one new handler,
and the registry, if its file can be loaded, is the one of the file with that bound. Besides, there are files that
cannot be read; these raise errors of their own, and the world is as it was. -/
theorem create_settings (files : String → Document.File) (directory path word : String)
    (source : Except Document.FileFault Document.Shared) (environment : Settings.Environment) (stream : ι)
    (w : World ι) :
    ∃ result after,
      (create files directory path word source environment stream).run.run w = (result, after) ∧
      ((∃ fault, Facade.load path source word environment = .error (.own fault) ∧
          result = .error (.settings (.own fault)) ∧ after = w) ∨
        (∃ facade number, Facade.load path source word environment = .ok facade ∧
          (∀ bound, facade.maxDepth = some bound → 1 ≤ bound) ∧
          (facade.level, number) ∈
            [("DEBUG", 10), ("INFO", 20), ("WARNING", 30), ("ERROR", 40), ("CRITICAL", 50)] ∧
          facade.logLevel = .inl number ∧
          after.logger.level = number ∧
          after.logger.handlers = [⟨stream, if facade.jsonFormat then .json else .plain⟩] ∧
          result = ((Registry.ofFile none (facade.schemasPath directory)
            (files (facade.schemasPath directory))).1.map fun r =>
              { r with maxDepth := facade.maxDepth }).mapError .registry) ∨
        (∃ fault, source = .error fault ∧ fault ≠ .missing ∧
          Facade.load path source word environment = .error (.file fault) ∧
          result = .error (.settings (.file fault)) ∧ after = w)) := by
  cases h : Settings.ofSource path source word environment with
  | ok s =>
      refine ⟨_, _, run_create_ok h w, .inr (.inl ⟨s.facade, s.level.number, ?_, ?_, Settings.mem_levels s.level,
        Settings.levelNumber_name s.level, Log.Logger.level_configure ..,
        Log.Logger.handlers_configure .., ?_⟩)⟩
      · rw [Settings.load_eq, h]
        rfl
      · exact Settings.positive_of_ofSource h
      · rw [Registry.ofFile_eq]
        rfl
  | error fault =>
      have hload : Facade.load path source word environment = .error (Settings.Raised.ofFault fault) := by
        rw [Settings.load_eq, h]
        rfl
      refine ⟨_, _, run_create_error hload w, ?_⟩
      rcases Settings.raised_of_ofSource h with ⟨own, hown⟩ | ⟨unread, hsource, hne, hunread⟩
      · exact .inl ⟨own, hown ▸ hload, by rw [hown], rfl⟩
      · exact .inr (.inr ⟨unread, hsource, hne, hunread ▸ hload, by rw [hunread], rfl⟩)

end App
end Wireform
