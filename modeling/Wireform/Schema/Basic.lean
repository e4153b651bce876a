import Wireform.Value.Text

/-!
# Schemas

A schema describes one shape of typed values and how such a value is read from an untyped one and written
back. Schemas are data: nine scalar kinds and seven ways of combining them. The branches of a variant are
lists of fields, so a branch can be nothing but an object.
-/
namespace Wireform

/-- The kinds of schemas that have no parts. -/
inductive Scalar
  | string
  | boolean
  | integer
  | float
  | dateUnixSecs
  | dateUnixMillis
  | dateIso
  | raw
  | nothing
deriving DecidableEq

namespace Scalar

/-- All kinds, with the names that documents use for them. -/
def named : List (String × Scalar) :=
  [("string", string), ("boolean", boolean), ("integer", integer), ("float", float),
    ("date_unix_secs", dateUnixSecs), ("date_unix_millis", dateUnixMillis), ("date_iso", dateIso),
    ("raw", raw), ("nothing", nothing)]

def ofName? (name : String) : Option Scalar :=
  named.lookup name

/-- What an error message says was expected. -/
def label : Scalar → String
  | string => "string"
  | boolean => "boolean"
  | integer => "integer"
  | float => "float"
  | dateUnixSecs => "dateUnixSecs"
  | dateUnixMillis => "dateUnixMillis"
  | dateIso => "dateIso"
  | raw => "raw"
  | nothing => "nothing"

end Scalar

inductive Container
  | none
  | list
  | object
  | tuple
  | sum
deriving DecidableEq

def Container.name : Container → String
  | none => "none"
  | list => "list"
  | object => "obj"
  | tuple => "tuple"
  | sum => "sumtype"

inductive Schema
  | scalar (kind : Scalar)
  /-- A value that may be absent. -/
  | optional (inner : Schema)
  /-- A value that may be null; reads and writes like `optional`. -/
  | nullable (inner : Schema)
  | array (item : Schema)
  | object (fields : List (String × Schema))
  | tuple (positions : List Schema)
  | oneOf (members : List String)
  /-- One of several objects, told apart by the text of a further field. The first branch with a tag
  counts. -/
  | variant (discriminant : String) (branches : List (String × List (String × Schema)))

namespace Schema

instance : Inhabited Schema := ⟨.scalar .raw⟩

def container : Schema → Container
  | scalar _ => .none
  | optional _ => .none
  | nullable _ => .none
  | array _ => .list
  | object _ => .object
  | tuple _ => .tuple
  | oneOf _ => .sum
  | variant .. => .sum

/-- A schema in written form shows its container and nothing else. -/
def written (s : Schema) : String :=
  "Schema(container=" ++ Text.quote s.container.name ++ ")"

def fields? : Schema → Option (List (String × Schema))
  | object fields => some fields
  | _ => none

/-- An object whose fields may all be absent. -/
def partialObject (fields : List (String × Schema)) : Schema :=
  .object (fields.map fun field => (field.1, .optional field.2))

/-- The field that tells the branches of a variant apart, unless another one is declared. -/
def defaultDiscriminant : String := "type"

/-- What an error message says where no member fits. -/
def membersLabel (members : List String) : String :=
  "one of " ++ ", ".intercalate members

/-- What an error message says where no tag fits. -/
def tagsLabel (discriminant : String) (tags : List String) : String :=
  discriminant ++ " in " ++ Text.asciiJsonList tags

/-- The fields of the first branch with a tag. -/
def branch? (tag : String) (branches : List (String × List (String × Schema))) :
    Option (List (String × Schema)) :=
  branches.lookup tag

end Schema

structure Mismatch where
  expected : String
  actual : Value

def Mismatch.message (m : Mismatch) : String :=
  "Parse error: expected " ++ m.expected ++ " but found " ++ m.actual.render

/-- Applies a step that may fail to every item in order; the first failure is the outcome. -/
def collect {ε α β : Type} (f : α → Except ε β) : List α → Except ε (List β)
  | [] => .ok []
  | a :: as =>
    match f a with
    | .error e => .error e
    | .ok b =>
      match collect f as with
      | .error e => .error e
      | .ok bs => .ok (b :: bs)

end Wireform
