import Wireform.DateTime.Basic

/-!
# Untyped values

The values that documents hold, that schemas read, and that they give back. Maps keep the order in which
their keys were first put. A map may have any value as a key; keys are the same when they are equal as
numbers, as texts, as instants, or part by part.
-/
namespace Wireform

/-- A value of a document or a typed value decoded from one. -/
inductive Value
  | null
  | bool (b : Bool)
  | int (n : Int)
  | float (x : Double)
  | str (s : String)
  | list (items : List Value)
  | tuple (items : List Value)
  | map (entries : List (Value × Value))
  | datetime (t : DateTime)
  /-- A calendar day without a time, by its number. -/
  | day (ordinal : Nat)
  | bytes (bs : List UInt8)
  | set (items : List Value)
  /-- An object with named attributes that is no map. -/
  | record (attributes : List (String × Value))

namespace Value

instance : Inhabited Value := ⟨.null⟩

/-- A number, with the truth values counted as one and zero. -/
def number? : Value → Option (Int ⊕ Double)
  | .bool b => some (.inl (if b then 1 else 0))
  | .int n => some (.inl n)
  | .float x => some (.inr x)
  | _ => none

def equalNumbers : Int ⊕ Double → Int ⊕ Double → Bool
  | .inl m, .inl n => m == n
  | .inl m, .inr y => y.toInt? == some m
  | .inr x, .inl n => x.toInt? == some n
  | .inr x, .inr y => x.equal y

mutual

/-- Whether two values are the same key. -/
def sameKey : Value → Value → Bool
  | .null, .null => true
  | .str s, .str t => s == t
  | .tuple xs, .tuple ys => sameKeys xs ys
  | .datetime t, .datetime u => t.equal u
  | .day m, .day n => m == n
  | .bytes xs, .bytes ys => xs == ys
  | v, w =>
    match v.number?, w.number? with
    | some m, some n => equalNumbers m n
    | _, _ => false

def sameKeys : List Value → List Value → Bool
  | [], [] => true
  | x :: xs, y :: ys => sameKey x y && sameKeys xs ys
  | _, _ => false

end

/-- Sets what belongs to a key in place, or adds the key at the end. -/
def put {α : Type} (key : Value) (a : α) : List (Value × α) → List (Value × α)
  | [] => [(key, a)]
  | (k, b) :: rest => if sameKey k key then (k, a) :: rest else (k, b) :: put key a rest

/-- Pairs with the same key made one: a key keeps its first place and takes its last value. -/
def distinct {α : Type} (pairs : List (Value × α)) : List (Value × α) :=
  pairs.foldl (fun entries p => put p.1 p.2 entries) []

def ofPairs (pairs : List (Value × Value)) : Value :=
  .map (distinct pairs)

def find? {α : Type} (key : Value) : List (Value × α) → Option α
  | [] => none
  | (k, a) :: rest => if sameKey k key then some a else find? key rest

def get? (name : String) : List (Value × Value) → Option Value
  | [] => none
  | (.str s, v) :: rest => if s = name then some v else get? name rest
  | _ :: rest => get? name rest

/-- The value under a text as key, null if there is none. -/
def getD (name : String) (entries : List (Value × Value)) : Value :=
  (get? name entries).getD .null

mutual

/-- Whether a value can be a key: whatever cannot be changed. -/
def isKey : Value → Bool
  | .list _ => false
  | .map _ => false
  | .set _ => false
  | .tuple items => areKeys items
  | _ => true

def areKeys : List Value → Bool
  | [] => true
  | item :: items => isKey item && areKeys items

end

/-- Whether a value counts as true: neither null, false, zero nor empty. -/
def isTruthy : Value → Bool
  | .null => false
  | .bool b => b
  | .int n => n != 0
  | .float x => !x.isZero
  | .str s => s != ""
  | .list items | .tuple items | .set items => !items.isEmpty
  | .map entries => !entries.isEmpty
  | .bytes bs => !bs.isEmpty
  | .datetime _ | .day _ | .record _ => true

def typeName : Value → String
  | .null => "NoneType"
  | .bool _ => "bool"
  | .int _ => "int"
  | .float _ => "float"
  | .str _ => "str"
  | .list _ => "list"
  | .tuple _ => "tuple"
  | .map _ => "dict"
  | .datetime _ => "datetime"
  | .day _ => "date"
  | .bytes _ => "bytes"
  | .set _ => "set"
  | .record _ => "SimpleNamespace"

def ofChar (c : Char) : Value :=
  .str (String.singleton c)

/-- The items of a value in order: the characters of a text, the keys of a map. -/
def iterate? : Value → Option (List Value)
  | .str s => some (s.toList.map ofChar)
  | .list items => some items
  | .tuple items => some items
  | .set items => some items
  | .map entries => some (entries.map (·.1))
  | .bytes bs => some (bs.map fun b => .int b.toNat)
  | _ => none

/-- The items of a list or tuple. -/
def items? : Value → Option (List Value)
  | .list items | .tuple items => some items
  | _ => none

end Value

/-! ### Lists of named things

Setting what belongs to a name. A name keeps its first place and takes what it was given last, or keeps what it
was given first.
-/

namespace Named

/-- Sets what belongs to a name in place, or adds the name at the end. -/
def put {α : Type} (name : String) (a : α) : List (String × α) → List (String × α)
  | [] => [(name, a)]
  | (n, b) :: rest => if n = name then (n, a) :: rest else (n, b) :: put name a rest

/-- Things with the same name made one. -/
def distinct {α : Type} (things : List (String × α)) : List (String × α) :=
  things.foldl (fun found t => put t.1 t.2 found) []

/-- Adds what belongs to a name at the end, unless the name has something already. -/
def setDefault {α : Type} (name : String) (a : α) (things : List (String × α)) : List (String × α) :=
  match things.lookup name with
  | some _ => things
  | none => things ++ [(name, a)]

end Named
end Wireform
