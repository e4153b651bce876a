import Wireform.Registry.Resolver
import Wireform.Schema.Decode
import Wireform.Schema.Encode
import Wireform.Yaml.Value

/-!
# Registries

Named schemas, loaded from a document and used by name. A registry may have a bound on the depth of what
it reads; the bound is checked before the schema is looked at.
-/
namespace Wireform

structure Registry where
  schemas : List (String × Schema)
  maxDepth : Option Int

namespace Registry

def versionComplaints (entries : List (Value × Value)) : List Document.Complaint :=
  match Value.get? "version" entries with
  | none => []
  | some v =>
    match Document.int v with
    | .ok _ => []
    | .error cause => [⟨cause, [.name "version"]⟩]

def definitionsOf (entries : List (Value × Value)) :
    Except (List Document.Complaint) (List (String × Value)) :=
  match Value.get? "schemas" entries with
  | none => .error [⟨.missing, [.name "schemas"]⟩]
  | some (.map definitions) => Document.namedEntries "schemas" definitions
  | some _ => .error [⟨.notMap, [.name "schemas"]⟩]

def readDefinitions (document : Value) : Except LoadFault (List (String × Value)) :=
  match document with
  | .map entries =>
    if !(Document.badKeys entries).isEmpty then .error .notFields
    else
      match versionComplaints entries, definitionsOf entries with
      | [], .ok definitions => .ok definitions
      | complaints, .ok _ => .error (.malformed complaints)
      | complaints, .error more => .error (.malformed (complaints ++ more))
  | _ => .error .notFields

/-- The names that scalar schemas have already, in order. -/
def shadowing (names : List String) : List String :=
  (names.filter fun name => (Scalar.ofName? name).isSome).mergeSort (fun a b => decide (a ≤ b))

def loadedRecord (names : List String) : Log.Record :=
  ⟨Log.debug, Log.registryLogger,
    "Loaded " ++ toString names.length ++ " schemas: " ++ ", ".intercalate names, none⟩

/-- Builds the schemas of a document and reports how many there are. -/
def loadSchemas (document : Value) : Resolve (List (String × Schema)) := do
  match readDefinitions document with
  | .error fault => throw fault
  | .ok definitions =>
    let names := definitions.map (·.1)
    if (shadowing names).isEmpty then
      let schemas ← resolveAll definitions names
      report [loadedRecord names]
      return schemas
    else throw (.shadowing (shadowing names))

/-- The registry of a document, or the first fault, with what was reported on the way. -/
def ofDocument (maxDepth : Option Int) (document : Value) :
    Except LoadFault Registry × List Log.Record :=
  let (result, progress) := (loadSchemas document).run.run ⟨[], []⟩
  (result.map fun schemas => ⟨schemas, maxDepth⟩, progress.log)

inductive UseFault
  | unknownSchema (name : String)
  | mismatch (m : Mismatch)
  /-- The bound on the depth has too many digits to be shown. -/
  | boundTooLong
  | encode (fault : EncodeFault)

def unknownMessage (name : String) : String :=
  "Unknown schema: " ++ name

def names (r : Registry) : List String :=
  r.schemas.map (·.1)

def get? (r : Registry) (name : String) : Option Schema :=
  r.schemas.lookup name

/-- Whether a value is the name of a schema. A value that cannot be a key cannot be asked for. -/
def contains? (r : Registry) (v : Value) : Option Bool :=
  if v.isKey then
    match v with
    | .str name => some (r.get? name).isSome
    | _ => some false
  else none

/-- Reads a value after the check of its depth. -/
def decodeWith (maxDepth : Option Int) (s : Schema) (v : Value) : Except UseFault Value :=
  match maxDepth with
  | none => (s.decode v).mapError .mismatch
  | some bound =>
    match v.checkDepth bound with
    | .error (.tooDeep m) => .error (.mismatch m)
    | .error .boundTooLong => .error .boundTooLong
    | .ok () => (s.decode v).mapError .mismatch

def failedRecord (name : String) (m : Mismatch) : Log.Record :=
  ⟨Log.debug, Log.registryLogger,
    "Decoding " ++ Text.quote name ++ " failed: expected " ++ m.expected, none⟩

/-- Reads a value by name, with a record if it does not fit. -/
def decode (r : Registry) (name : String) (v : Value) : Except UseFault Value × List Log.Record :=
  match r.get? name with
  | none => (.error (.unknownSchema name), [])
  | some s =>
    match decodeWith r.maxDepth s v with
    | .error (.mismatch m) => (.error (.mismatch m), [failedRecord name m])
    | result => (result, [])

def encode (r : Registry) (name : String) (v : Value) : Except UseFault Value :=
  match r.get? name with
  | none => .error (.unknownSchema name)
  | some s =>
    match s.encode v with
    | .ok e => .ok e
    | .error fault => .error (.encode fault)

end Registry
end Wireform

/-! ### Files -/

namespace Wireform.Registry

inductive FileFault
  | unread (path : String) (fault : Document.FileFault)
  | notMap (path : String)
  | load (fault : LoadFault)

/-- The text of a fault; for an unread file, that it is missing. -/
def FileFault.message : FileFault → String
  | unread path _ => "Schema registry not found: " ++ path
  | notMap path => path ++ ": YAML must contain a mapping"
  | load fault => fault.message

/-- The registry of a file, or the first fault, with what was reported on the way. -/
def ofFile (maxDepth : Option Int) (path : String) (file : Document.File) :
    Except FileFault Registry × List Log.Record :=
  match file.document with
  | .error fault => (.error (.unread path fault), [])
  | .ok document =>
    match document.value with
    | .map entries =>
      let (result, log) := ofDocument maxDepth (.map entries)
      (result.mapError .load, log)
    | _ => (.error (.notMap path), [])

end Wireform.Registry

/-! ### Round trips -/

namespace Wireform

structure RoundTrip where
  decoded : Value
  encoded : Value
  redecoded : Value

/-- The round trip of a value through a schema, or the first fault on the way. -/
def Schema.roundTrip (s : Schema) (v : Value) : Except EncodeFault RoundTrip := do
  let t ← (s.decode v).mapError .mismatch
  let e ← s.encode t
  let t' ← (s.decode e).mapError .mismatch
  return ⟨t, e, t'⟩

/-- The round trip of a value through a named schema of a registry, with what was reported on the way. -/
def Registry.roundTrip (r : Registry) (name : String) (v : Value) :
    Except Registry.UseFault RoundTrip × List Log.Record :=
  match r.decode name v with
  | (.error fault, log) => (.error fault, log)
  | (.ok t, log) =>
    match r.encode name t with
    | .error fault => (.error fault, log)
    | .ok e =>
      match r.decode name e with
      | (.error fault, more) => (.error fault, log ++ more)
      | (.ok t', more) => (.ok ⟨t, e, t'⟩, log ++ more)

end Wireform
