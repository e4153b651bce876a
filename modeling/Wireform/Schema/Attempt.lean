import Wireform.Attempt
import Wireform.Schema.Decode

/-!
# Decoding by operations that raise

Decoding once more, with the readers that may raise. A text is tested for before anything is looked up under it,
and a mismatch is raised after its message is made.
-/
namespace Wireform

def Value.isText : Value → Bool
  | .str _ => true
  | _ => false

/-- Only the readers of numbers and times have operations that raise. -/
def Scalar.attempt? : Scalar → Value → Attempt (Option Value)
  | integer, v => (Attempt.toInt v).map (Option.map .int)
  | float, v => (Attempt.toDouble v).map (Option.map .float)
  | dateUnixSecs, v => (Attempt.secondsToDateTime v).map (Option.map .datetime)
  | dateUnixMillis, v => (Attempt.millisToDateTime v).map (Option.map .datetime)
  | dateIso, v => (Attempt.isoToDateTime v).map (Option.map .datetime)
  | kind, v => .ok (kind.read? v)

namespace Schema

open Attempt (fail lookUp)

mutual

def attempt : Schema → Value → Attempt Value
  | scalar kind, v => do
    match ← kind.attempt? v with
    | some t => return t
    | none => fail kind.label v
  | optional inner, v =>
    match v with
    | .null => .ok .null
    | v => attempt inner v
  | nullable inner, v =>
    match v with
    | .null => .ok .null
    | v => attempt inner v
  | array item, v =>
    match v.items? with
    | some items => (collect (attempt item) items).map .list
    | none => fail "array" v
  | object fields, v =>
    match v with
    | .map entries => (attemptFields fields entries).map .map
    | v => if fields.isEmpty then .ok (.map []) else fail "an object" v
  | tuple positions, v =>
    match v.items? with
    | some items => (attemptPositions positions items).map .tuple
    | none => fail "an array" v
  | oneOf members, v => do
    let found ← if v.isText then lookUp v (members.find? fun s => Value.sameKey (.str s) v) else .ok none
    match found with
    | some _ => return v
    | none => fail (membersLabel members) v
  | variant discriminant branches, v =>
    match v with
    | .map entries => do
      let tag := Value.getD discriminant entries
      let found ← if tag.isText then lookUp tag (attemptBranch tag branches entries) else .ok none
      match found with
      | some result => result.map fun fields => .map (Value.put (.str discriminant) tag fields)
      | none => fail (tagsLabel discriminant (branches.map (·.1))) v
    | v => fail "an object" v

def attemptFields :
    List (String × Schema) → List (Value × Value) → Attempt (List (Value × Value))
  | [], _ => .ok []
  | (name, s) :: fields, entries => do
    let value ← attempt s (Value.getD name entries)
    let rest ← attemptFields fields entries
    return (.str name, value) :: rest

def attemptPositions : List Schema → List Value → Attempt (List Value)
  | [], _ => .ok []
  | s :: positions, items => do
    let value ← attempt s (items.headD .null)
    let rest ← attemptPositions positions items.tail
    return value :: rest

def attemptBranch (tag : Value) :
    List (String × List (String × Schema)) → List (Value × Value) →
      Option (Attempt (List (Value × Value)))
  | [], _ => none
  | (t, fields) :: branches, entries =>
    if Value.sameKey (.str t) tag then some (attemptFields fields entries)
    else attemptBranch tag branches entries

end

end Schema
end Wireform
