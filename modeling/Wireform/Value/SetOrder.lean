import Wireform.Value.Basic

/-!
# The order of numbers in a set

A set keeps its items in slots, a power of two of them, and shows them slot by slot. A number goes to the
slot of its residue, or where that is taken to one of the slots after it or of a fixed sequence of others.
A set with other items than numbers shows them in the order in which they came.
-/
namespace Wireform.SetOrder

/-- The prime by which numbers are reduced. Two to its exponent, sixty-one, leaves one. -/
def prime : Nat := 2 ^ 61 - 1

def residue (n : Nat) (exponent : Int) : Nat :=
  n * 2 ^ (exponent % 61).toNat % prime

/-- The code of a number with the given sign and residue. No number has minus one. -/
def signedCode (negative : Bool) (n : Nat) : Int :=
  let code := Numeral.signed negative n
  if code = -1 then -2 else code

/-- The code of a number, equal for equal numbers. -/
def code? (v : Value) : Option Int :=
  match v.number? with
  | some (.inl n) => some (signedCode (n < 0) (residue n.natAbs 0))
  | some (.inr (.finite negative m e _)) => some (signedCode negative (residue m e))
  | some (.inr (.infinite negative)) => some (Numeral.signed negative 314159)
  | _ => none

/-- The number of slots for a number of items. -/
def slotCount (items : Nat) : Nat :=
  if items * 5 < 21 then 8 else 2 ^ ((2 * items).log2 + 1)

/-- The slots after one that are tried as well. -/
def neighbours (slots i : Nat) : Nat :=
  if i + 9 < slots then 9 else 0

/-- The first free slot of those that are tried, from slot `i` on. -/
def freeSlot (taken : List (Nat × Value)) (slots : Nat) : Nat → Nat → Nat → Nat
  | 0, _, i => i
  | more + 1, high, i =>
    let tried := (List.range (neighbours slots i + 1)).map (i + ·)
    match tried.find? fun slot => !(taken.any (·.1 == slot)) with
    | some slot => slot
    | none =>
      let high := high / 32
      freeSlot taken slots more high ((i * 5 + 1 + high) % slots)

def place (slots : Nat) (taken : List (Nat × Value)) (item : Int × Value) : List (Nat × Value) :=
  let high := (item.1 % 2 ^ 64).toNat
  (freeSlot taken slots (slots + 16) high (high % slots), item.2) :: taken

/-- The items of a set in the order in which it shows them. -/
def arrange (items : List Value) : List Value :=
  match items.mapM fun v => (code? v).map (·, v) with
  | none => items
  | some coded =>
    let taken := coded.foldl (place (slotCount items.length)) []
    (taken.mergeSort fun a b => a.1 ≤ b.1).map (·.2)

end Wireform.SetOrder
