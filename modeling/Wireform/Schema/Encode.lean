import Wireform.Coercion
import Wireform.Schema.Basic
import Wireform.Value.Attribute

/-!
# Encoding

Writing a typed value as an untyped one. A value that decoding gave back is always written; any other
value is taken for what it offers: a text for its characters, a map for its keys, a missing field or
position for null.
-/
namespace Wireform

inductive EncodeFault
  /-- A date schema was given something else than a time. -/
  | notDateTime
  /-- A variant was given something else than a map. -/
  | notMap
  | notIterable
  | noLength
  /-- The value has items but no order. -/
  | noPositions
  /-- A map has no key for a position. -/
  | noSuchKey (position : Nat)
  /-- The instant in UTC leaves the calendar. -/
  | outsideCalendar
  | mismatch (m : Mismatch)

/-- Writes a scalar. Only dates have a form of their own. -/
def Scalar.write : Scalar → Value → Except EncodeFault Value
  | dateUnixSecs, v => match v with
    | .datetime t => .ok (.float t.seconds)
    | _ => .error .notDateTime
  | dateUnixMillis, v => match v with
    | .datetime t => .ok (.int t.millis)
    | _ => .error .notDateTime
  | dateIso, v => match v with
    | .datetime t =>
      match t.isoText? with
      | some text => .ok (.str text)
      | none => .error .outsideCalendar
    | _ => .error .notDateTime
  | nothing, _ => .ok (.str "")
  | _, v => .ok v

namespace Value

/-- The value under a field name: a map's entry or an attribute, null if there is none. -/
def field (name : String) : Value → Value
  | .map entries => getD name entries
  | v => (v.attributes.lookup name).getD .null

/-- The value at a position, null past the end. A map is asked for the position as a key. -/
def position (i : Nat) : Value → Except EncodeFault Value
  | .map entries =>
    if i < entries.length then
      match find? (.int i) entries with
      | some v => .ok v
      | none => .error (.noSuchKey i)
    else .ok .null
  | .set items => if i < items.length then .error .noPositions else .ok .null
  | v =>
    match v.iterate? with
    | some items => .ok (items.getD i .null)
    | none => .error .noLength

end Value

namespace Schema

/-- Writes null as null and hands everything else on. -/
def nullOr (write : Value → Except EncodeFault Value) : Value → Except EncodeFault Value
  | .null => .ok .null
  | v => write v

mutual

def encode : Schema → Value → Except EncodeFault Value
  | scalar kind, v => kind.write v
  | optional inner, v => nullOr (encode inner) v
  | nullable inner, v => nullOr (encode inner) v
  | array item, v =>
    match v.iterate? with
    | some items => (collect (encode item) items).map .list
    | none => .error .notIterable
  | object fields, v => (encodeFields fields v).map .map
  | tuple positions, v => (encodePositions 0 positions v).map .list
  | oneOf _, v => .ok v
  | variant discriminant branches, v =>
    match v with
    | .map entries =>
      match Value.getD discriminant entries with
      | .str tag =>
        match encodeBranch tag branches v with
        | some result => result.map fun fields => .map (Value.put (.str discriminant) (.str tag) fields)
        | none => .error (.mismatch ⟨tagsLabel discriminant (branches.map (·.1)), v⟩)
      | _ => .error (.mismatch ⟨tagsLabel discriminant (branches.map (·.1)), v⟩)
    | _ => .error .notMap

def encodeFields : List (String × Schema) → Value → Except EncodeFault (List (Value × Value))
  | [], _ => .ok []
  | (name, s) :: fields, v =>
    match encode s (v.field name) with
    | .error e => .error e
    | .ok value =>
      match encodeFields fields v with
      | .error e => .error e
      | .ok rest => .ok ((.str name, value) :: rest)

/-- Writes the declared positions in order, the first of them at the given place of the value. -/
def encodePositions : Nat → List Schema → Value → Except EncodeFault (List Value)
  | _, [], _ => .ok []
  | i, s :: positions, v =>
    match v.position i with
    | .error e => .error e
    | .ok item =>
      match encode s item with
      | .error e => .error e
      | .ok value =>
        match encodePositions (i + 1) positions v with
        | .error e => .error e
        | .ok rest => .ok (value :: rest)

/-- Writes the fields of the first branch with the tag; `none` if there is no such branch. -/
def encodeBranch (tag : String) :
    List (String × List (String × Schema)) → Value →
      Option (Except EncodeFault (List (Value × Value)))
  | [], _ => none
  | (t, fields) :: branches, v =>
    if t = tag then some (encodeFields fields v) else encodeBranch tag branches v

end

end Schema
end Wireform
