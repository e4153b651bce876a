import Wireform.Coercion
import Wireform.Schema.Basic
import Wireform.Value.Depth

/-!
# Decoding

Reading a typed value from an untyped one. Everything that is declared is read, in the order of its
declaration, and the first part that does not fit ends the reading. What is missing reads as null.
-/
namespace Wireform

/-- Reads a scalar, if the value has one of its forms. -/
def Scalar.read? : Scalar → Value → Option Value
  | string, v => match v with
    | .str s => some (.str s)
    | _ => none
  | boolean, v => match v with
    | .bool b => some (.bool b)
    | _ => none
  | integer, v => v.toInt?.map .int
  | float, v => v.toDouble?.map .float
  | dateUnixSecs, v => v.secondsToDateTime?.map .datetime
  | dateUnixMillis, v => v.millisToDateTime?.map .datetime
  | dateIso, v => v.isoToDateTime?.map .datetime
  | raw, v => some v
  | nothing, _ => some .null

namespace Schema

/-- Reads an absent value as null and hands everything else on. -/
def orNull (read : Value → Except Mismatch Value) : Value → Except Mismatch Value
  | .null => .ok .null
  | v => read v

mutual

def decode : Schema → Value → Except Mismatch Value
  | scalar kind, v =>
    match kind.read? v with
    | some t => .ok t
    | none => .error ⟨kind.label, v⟩
  | optional inner, v => orNull (decode inner) v
  | nullable inner, v => orNull (decode inner) v
  | array item, v =>
    match v.items? with
    | some items => (collect (decode item) items).map .list
    | none => .error ⟨"array", v⟩
  | object fields, v =>
    match v with
    | .map entries => (decodeFields fields entries).map .map
    | v => if fields.isEmpty then .ok (.map []) else .error ⟨"an object", v⟩
  | tuple positions, v =>
    match v.items? with
    | some items => (decodePositions positions items).map .tuple
    | none => .error ⟨"an array", v⟩
  | oneOf members, v =>
    match v with
    | .str s => if s ∈ members then .ok (.str s) else .error ⟨membersLabel members, .str s⟩
    | v => .error ⟨membersLabel members, v⟩
  | variant discriminant branches, v =>
    match v with
    | .map entries =>
      match Value.getD discriminant entries with
      | .str tag =>
        match decodeBranch tag branches entries with
        | some result => result.map fun fields => .map (Value.put (.str discriminant) (.str tag) fields)
        | none => .error ⟨tagsLabel discriminant (branches.map (·.1)), v⟩
      | _ => .error ⟨tagsLabel discriminant (branches.map (·.1)), v⟩
    | v => .error ⟨"an object", v⟩

def decodeFields :
    List (String × Schema) → List (Value × Value) → Except Mismatch (List (Value × Value))
  | [], _ => .ok []
  | (name, s) :: fields, entries =>
    match decode s (Value.getD name entries) with
    | .error e => .error e
    | .ok value =>
      match decodeFields fields entries with
      | .error e => .error e
      | .ok rest => .ok ((.str name, value) :: rest)

def decodePositions : List Schema → List Value → Except Mismatch (List Value)
  | [], _ => .ok []
  | s :: positions, items =>
    match decode s (items.headD .null) with
    | .error e => .error e
    | .ok value =>
      match decodePositions positions items.tail with
      | .error e => .error e
      | .ok rest => .ok (value :: rest)

/-- Reads the fields of the first branch with the tag; `none` if there is no such branch. -/
def decodeBranch (tag : String) :
    List (String × List (String × Schema)) → List (Value × Value) →
      Option (Except Mismatch (List (Value × Value)))
  | [], _ => none
  | (t, fields) :: branches, entries =>
    if t = tag then some (decodeFields fields entries) else decodeBranch tag branches entries

end

end Schema

inductive DepthFault
  | tooDeep (m : Mismatch)
  /-- The value is too deep, and the bound has too many digits to be shown. -/
  | boundTooLong

def Value.checkDepth (maxDepth : Int) (v : Value) : Except DepthFault Unit :=
  if maxDepth < v.nestingDepth maxDepth then
    match Numeral.decimal? maxDepth with
    | some text => .error (.tooDeep ⟨"nesting depth at most " ++ text, v⟩)
    | none => .error .boundTooLong
  else .ok ()

end Wireform
