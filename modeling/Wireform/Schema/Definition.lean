import Wireform.Log.Record
import Wireform.Schema.Basic

/-!
# Definitions

Building a schema from parts that may not fit. Every combinator has a checked form that takes operands,
which may be schemas or plain values, and answers with a schema or the reason why there is none. A variant
that declares a tag twice is built, and a warning is reported.
-/
namespace Wireform

inductive Combinator
  | optional
  | nullable
  | array
  | object
  | partialObject
  | tuple
  | oneOf
  | variant
deriving DecidableEq

namespace Combinator

/-- All combinators, with the names that documents use for them. -/
def named : List (String × Combinator) :=
  [("optional", optional), ("nullable", nullable), ("array", array), ("obj", object),
    ("partial_obj", partialObject), ("tuple", tuple), ("one_of", oneOf), ("variant", variant)]

def ofName? (name : String) : Option Combinator :=
  named.lookup name

def name : Combinator → String
  | optional => "optional"
  | nullable => "nullable"
  | array => "array"
  | object => "obj"
  | partialObject => "partial_obj"
  | tuple => "tuple"
  | oneOf => "one_of"
  | variant => "variant"

end Combinator

/-- Something that a combinator is given: a schema, or what stands for one, or a plain value, or a collection of
arguments. A map is as it is written, where a later entry takes the place of one with the same key. -/
inductive Argument (α : Type)
  | schema (a : α)
  | value (v : Value)
  | list (items : List (Argument α))
  | tuple (items : List (Argument α))
  | map (entries : List (Value × Argument α))

/-- An argument with its schemas in it. -/
abbrev Operand := Argument Schema

namespace Argument

variable {α : Type}

def typeName : Argument α → String
  | schema _ => "Schema"
  | value v => v.typeName
  | list _ => "list"
  | tuple _ => "tuple"
  | map _ => "dict"

/-- The items in order, which are the keys if it is a map. -/
def iterate? : Argument α → Option (List (Argument α))
  | schema _ => none
  | value v => v.iterate?.map (List.map value)
  | list items | tuple items => some items
  | map entries => some ((Value.distinct entries).map fun e => value e.1)

def entries? : Argument α → Option (List (Value × Argument α))
  | value (.map entries) => some (entries.map fun e => (e.1, value e.2))
  | map entries => some (Value.distinct entries)
  | _ => none

def plain? : Argument α → Option Value
  | value v => some v
  | _ => none

def entryText? (entry : Value × Option String) : Option String := do
  let key ← entry.1.written?
  let part ← entry.2
  return key ++ ": " ++ part

mutual

/-- The written form, unless there is an integer in it that is too long to be shown. -/
def written? : Operand → Option String
  | schema s => some s.written
  | value v => v.written?
  | list items => (writtenItems? items).map (Value.bracketed "[" "]")
  | tuple items => (writtenItems? items).map Value.tupleText
  | map entries =>
    ((Value.distinct (writtenParts entries)).mapM entryText?).map (Value.bracketed "\x7b" "\x7d")

def writtenItems? : List Operand → Option (List String)
  | [] => some []
  | item :: items => do
    let part ← written? item
    let parts ← writtenItems? items
    return part :: parts

/-- The keys with the written forms of what they stand for. -/
def writtenParts : List (Value × Operand) → List (Value × Option String)
  | [] => []
  | (key, a) :: entries => (key, written? a) :: writtenParts entries

end

end Argument

/-- The places of a combinator where a schema is expected. -/
inductive Place
  | inner (c : Combinator)
  | field (c : Combinator) (name : String)
  | position (i : Nat)
  | branch (tag : String)
deriving DecidableEq

def Place.text : Place → String
  | inner c => c.name
  | field c name => c.name ++ " field " ++ Text.quote name
  | position i => "tuple_ position " ++ toString i
  | branch tag => "variant branch " ++ Text.quote tag

inductive DefinitionFault
  | notSchema (place : Place) (typeName : String)
  | fieldsNotMap (c : Combinator)
  | fieldNameNotText (c : Combinator) (key : String)
  | membersAreText
  | memberNotText
  | notAlternating
  /-- A pair with fewer or more than two parts. -/
  | notTwoParts (pair : String)
  /-- A pair that has no parts at all. -/
  | noParts (pair : String)
  | tagNotText (tag : String)
  | branchNotObject (tag : String) (container : Container)
  | noBranches
deriving DecidableEq

def DefinitionFault.message : DefinitionFault → String
  | notSchema place typeName => place.text ++ ": expected a Schema, got " ++ typeName
  | fieldsNotMap c => c.name ++ ": field definitions must be a mapping"
  | fieldNameNotText c key => c.name ++ ": field names must be strings, got " ++ key
  | membersAreText => "one_of: members must be a collection of strings, not a string"
  | memberNotText => "one_of: members must be strings"
  | notAlternating => "variant: arguments must alternate tag, schema"
  | notTwoParts pair => "variant: expected (tag, schema) pairs, got " ++ pair
  | noParts pair => "variant: expected (tag, schema) pairs, got " ++ pair
  | tagNotText tag => "variant: tags must be strings, got " ++ tag
  | branchNotObject tag container =>
    "variant branch " ++ Text.quote tag ++ ": expected an obj-shaped schema, got " ++
      Text.quote container.name
  | noBranches => "variant: at least one (tag, schema) pair is required"

inductive BuildFault
  | definition (fault : DefinitionFault)
  /-- The members of an enumeration, or the pairs of a variant, cannot be gone through. -/
  | notIterable
  /-- An expression names no known combinator. -/
  | unknownName (name : String)
  /-- An offending part holds an integer that is too long to be shown. -/
  | numberTooLong
deriving DecidableEq

/-- A fault that shows the written form of a part. -/
def BuildFault.showing (part : Option String) (fault : String → DefinitionFault) : BuildFault :=
  match part with
  | some text => .definition (fault text)
  | none => .numberTooLong

namespace Schema

def require (place : Place) : Operand → Except BuildFault Schema
  | .schema s => .ok s
  | operand => .error (.definition (.notSchema place operand.typeName))

def requireFields (c : Combinator) :
    List (Value × Operand) → Except BuildFault (List (String × Schema))
  | [] => .ok []
  | (.str name, operand) :: rest => do
    let s ← require (.field c name) operand
    let fields ← requireFields c rest
    return (name, s) :: fields
  | (key, _) :: _ => .error (.showing key.written? (.fieldNameNotText c))

/-- The fields that a map declares. -/
def fieldsOf (c : Combinator) (definitions : Operand) : Except BuildFault (List (String × Schema)) :=
  match definitions.entries? with
  | some entries => requireFields c entries
  | none => .error (.definition (.fieldsNotMap c))

/-- The positions that a run of operands declares, the first of them at the given place. -/
def requirePositions : Nat → List Operand → Except BuildFault (List Schema)
  | _, [] => .ok []
  | i, operand :: rest => do
    let s ← require (.position i) operand
    let positions ← requirePositions (i + 1) rest
    return s :: positions

def texts? : List Value → Option (List String)
  | [] => some []
  | .str s :: rest => (texts? rest).map (s :: ·)
  | _ :: _ => none

/-- The members that are listed: the keys of a map, or the items of anything else that has items and is no
text. -/
def requireMembers : Operand → Except BuildFault (List String)
  | .value (.str _) => .error (.definition .membersAreText)
  | members =>
    match members.iterate? with
    | none => .error .notIterable
    | some items =>
      match (items.mapM Argument.plain?).bind texts? with
      | some names => .ok names
      | none => .error (.definition .memberNotText)

/-- A branch of a variant: a tag and the fields of its object. -/
abbrev Branch := String × List (String × Schema)

/-- A branch with a tag that is known to be a text. -/
def requireBranch (tag : String) (operand : Operand) : Except BuildFault Branch := do
  let s ← require (.branch tag) operand
  match s.fields? with
  | some fields => return (tag, fields)
  | none => throw (.definition (.branchNotObject tag s.container))

def branchOf : Operand → Operand → Except BuildFault Branch
  | .value (.str tag), operand => requireBranch tag operand
  | tag, _ => .error (.showing tag.written? .tagNotText)

/-- The variant of some branches, at least one. -/
def variantOf (discriminant : String) (branches : List Branch) : Except BuildFault Schema :=
  if branches.isEmpty then .error (.definition .noBranches)
  else .ok (.variant discriminant branches)

/-- The tags that occur more than once, each of them once and in order. -/
def repeatedTags (tags : List String) : List String :=
  ((tags.filter fun tag => 1 < tags.count tag).eraseDups).mergeSort (fun a b => decide (a ≤ b))

/-- The warning about repeated tags, if there are any. -/
def tagWarnings (tags : List String) : List Log.Record :=
  let repeated := repeatedTags tags
  if repeated.isEmpty then []
  else
    [⟨Log.warning, Log.unionsLogger,
      "variant declares duplicate tags " ++ Text.quoteList repeated ++ "; first declaration wins", none⟩]

end Schema
end Wireform
