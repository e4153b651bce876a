import Wireform.Registry.Basic
import Wireform.Proofs.Depth
import Wireform.Proofs.Numeral

/-!
# The guard on depth

A registry with a bound refuses exactly the values that are deeper than the bound, and treats all others as if
it had none. A refusal is a mismatch like any other, and every mismatch is reported once. One thing is in the
way: the refusal shows the bound, and a bound with too many digits cannot be shown.
-/
namespace Wireform.Registry

/-- The same schemas without a bound. -/
def unguarded (r : Registry) : Registry := { r with maxDepth := none }

/-- The refusal of a value that is too deep. -/
def tooDeep (bound : Int) (v : Value) : Mismatch :=
  ⟨"nesting depth at most " ++ toString bound, v⟩

/-- The guard of a registry lets a value pass. -/
def Admits (r : Registry) (v : Value) : Prop :=
  ∀ bound, r.maxDepth = some bound → v.checkDepth bound = .ok ()

theorem admits_iff {r : Registry} {v : Value} :
    r.Admits v ↔ ∀ bound, r.maxDepth = some bound → v.depth ≤ bound := by
  refine forall₂_congr fun bound _ => ?_
  rw [Value.checkDepth_eq]
  by_cases hdepth : v.depth ≤ bound
  · simp [hdepth]
  · rw [if_neg hdepth]
    split <;> simp [hdepth]

/-- What passes the guard is read as if there were none. -/
theorem Admits.decode {r : Registry} {v : Value} (h : r.Admits v) (name : String) :
    r.decode name v = r.unguarded.decode name v := by
  cases hbound : r.maxDepth with
  | none => simp only [Registry.decode, unguarded, get?, hbound]
  | some bound => simp only [Registry.decode, unguarded, get?, decodeWith, hbound, h bound hbound]

theorem decode_of_deeper {r : Registry} {name : String} {s : Schema} {bound : Int} {v : Value}
    (hs : r.get? name = some s) (hbound : r.maxDepth = some bound) (hdepth : ¬ v.depth ≤ bound) :
    r.decode name v =
      if bound.natAbs < Numeral.tooLarge then
        (.error (.mismatch (tooDeep bound v)), [failedRecord name (tooDeep bound v)])
      else (.error .boundTooLong, []) := by
  have hcheck := Value.checkDepth_eq v bound
  rw [if_neg hdepth] at hcheck
  by_cases hshort : bound.natAbs < Numeral.tooLarge
  · rw [if_pos hshort] at hcheck ⊢
    simp only [decode, hs, decodeWith, hbound, hcheck]
    rfl
  · rw [if_neg hshort] at hcheck ⊢
    simp only [decode, hs, decodeWith, hbound, hcheck]

/-- What is reported along with an outcome: one record of a mismatch, and nothing else. -/
def reports (name : String) : Except UseFault Value → List Log.Record
  | .error (.mismatch m) => [failedRecord name m]
  | _ => []

theorem log_of_decode (r : Registry) (name : String) (v : Value) :
    (r.decode name v).2 = reports name (r.decode name v).1 := by
  unfold decode
  cases r.get? name with
  | none => rfl
  | some s =>
      simp only
      cases decodeWith r.maxDepth s v with
      | ok t => rfl
      | error fault => cases fault <;> rfl

end Wireform.Registry
