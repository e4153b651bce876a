import Wireform.Value.Basic
import Wireform.Schema.Decode
import Wireform.Schema.Definition
import Wireform.Schema.Encode

/-!
# Variants by a table

Reading and writing of a variant once more, as it goes on when the branches are put into a table beforehand. Of
branches with the same tag the first one stays. A map is read and written by the object that the table has
under its tag, and then the tag is set in the result.
-/
namespace Wireform.Schema

/-- The objects of a variant under their tags. -/
def table (branches : List Branch) : List (String × Schema) :=
  branches.foldl (fun found b => Named.setDefault b.1 (.object b.2) found) []

/-- The object under a tag. Nothing but a text can be a tag. -/
def select? (branches : List Branch) : Value → Option Schema
  | .str tag => (table branches).lookup tag
  | _ => none

/-- Sets a key of a map. -/
def setKey (key : String) (v : Value) : Value → Value
  | .map entries => .map (Value.put (.str key) v entries)
  | t => t

def decodeTagged (discriminant : String) (branches : List Branch) : Value → Except Mismatch Value
  | .map entries =>
    let tag := Value.getD discriminant entries
    match select? branches tag with
    | some s => (s.decode (.map entries)).map (setKey discriminant tag)
    | none => .error ⟨tagsLabel discriminant (branches.map (·.1)), .map entries⟩
  | v => .error ⟨"an object", v⟩

def encodeTagged (discriminant : String) (branches : List Branch) : Value → Except EncodeFault Value
  | .map entries =>
    let tag := Value.getD discriminant entries
    match select? branches tag with
    | some s => (s.encode (.map entries)).map (setKey discriminant tag)
    | none => .error (.mismatch ⟨tagsLabel discriminant (branches.map (·.1)), .map entries⟩)
  | _ => .error .notMap

end Wireform.Schema
