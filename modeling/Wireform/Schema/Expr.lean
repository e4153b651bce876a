import Wireform.Schema.Definition

/-!
# Schema expressions

How a schema is put together by combinators from arguments that may or may not be schemas. Building goes
from the inside out and from left to right, and the first fault ends it; warnings reported until then are
kept.
-/
namespace Wireform

/-- A schema constant, or a combinator with its arguments. -/
inductive Expr
  | scalar (kind : Scalar)
  | optional (inner : Argument Expr)
  | nullable (inner : Argument Expr)
  | array (item : Argument Expr)
  | object (definitions : Argument Expr)
  | partialObject (definitions : Argument Expr)
  | tuple (positions : List (Argument Expr))
  | oneOf (members : Argument Expr)
  /-- A variant of alternating tags and objects. -/
  | variant (discriminant : String) (arguments : List (Argument Expr))
  /-- A variant of pairs. -/
  | variantOf (discriminant : String) (pairs : Argument Expr)
  /-- Arguments under a name that is no combinator's. -/
  | unknown (name : String)

/-- A step of building: it may fail, and it adds to the log. -/
abbrev Build := ExceptT BuildFault (StateM (List Log.Record))

def Build.ofExcept {α : Type} (x : Except BuildFault α) : Build α := ExceptT.mk (pure x)

/-- The two parts of a pair. -/
def Argument.split (pair : Operand) : Except BuildFault (Operand × Operand) :=
  match pair.iterate? with
  | some [a, b] => .ok (a, b)
  | some _ => .error (.showing pair.written? .notTwoParts)
  | none => .error (.showing pair.written? .noParts)

namespace Schema

/-- The branches that pairs declare, each checked in turn. -/
def branchesOf : List Operand → Except BuildFault (List Branch)
  | [] => .ok []
  | pair :: rest => do
    let (tag, operand) ← pair.split
    let branch ← branchOf tag operand
    let branches ← branchesOf rest
    return branch :: branches

/-- Operands two by two; `none` if one is left over. -/
def pairUp? : List Operand → Option (List Operand)
  | [] => some []
  | [_] => none
  | tag :: operand :: rest => (pairUp? rest).map (.tuple [tag, operand] :: ·)

/-- A variant of pairs, with the warning about repeated tags. -/
def buildVariant (discriminant : String) (pairs : List Operand) : Build Schema := do
  let branches ← Build.ofExcept (branchesOf pairs)
  let s ← Build.ofExcept (variantOf discriminant branches)
  modify (· ++ tagWarnings (branches.map (·.1)))
  return s

end Schema

namespace Expr

mutual

def build : Expr → Build Schema
  | scalar kind => return .scalar kind
  | optional inner => do
    let operand ← buildArgument inner
    return .optional (← Build.ofExcept (Schema.require (.inner .optional) operand))
  | nullable inner => do
    let operand ← buildArgument inner
    return .nullable (← Build.ofExcept (Schema.require (.inner .nullable) operand))
  | array item => do
    let operand ← buildArgument item
    return .array (← Build.ofExcept (Schema.require (.inner .array) operand))
  | object definitions => do
    let operand ← buildArgument definitions
    return .object (← Build.ofExcept (Schema.fieldsOf .object operand))
  | partialObject definitions => do
    let operand ← buildArgument definitions
    return Schema.partialObject (← Build.ofExcept (Schema.fieldsOf .partialObject operand))
  | tuple positions => do
    let operands ← buildArguments positions
    return .tuple (← Build.ofExcept (Schema.requirePositions 0 operands))
  | oneOf members => do
    let operand ← buildArgument members
    return .oneOf (← Build.ofExcept (Schema.requireMembers operand))
  | variant discriminant arguments => do
    let operands ← buildArguments arguments
    match Schema.pairUp? operands with
    | some pairs => Schema.buildVariant discriminant pairs
    | none => throw (.definition .notAlternating)
  | variantOf discriminant pairs => do
    let operand ← buildArgument pairs
    match operand.iterate? with
    | some items => Schema.buildVariant discriminant items
    | none => throw .notIterable
  | unknown name => throw (.unknownName name)

def buildArgument : Argument Expr → Build Operand
  | .schema e => return .schema (← build e)
  | .value v => return .value v
  | .list items => return .list (← buildArguments items)
  | .tuple items => return .tuple (← buildArguments items)
  | .map entries => return .map (← buildEntries entries)

def buildArguments : List (Argument Expr) → Build (List Operand)
  | [] => return []
  | argument :: arguments => do
    let operand ← buildArgument argument
    let operands ← buildArguments arguments
    return operand :: operands

def buildEntries : List (Value × Argument Expr) → Build (List (Value × Operand))
  | [] => return []
  | (key, argument) :: entries => do
    let operand ← buildArgument argument
    let operands ← buildEntries entries
    return (key, operand) :: operands

end

/-- The schema of an expression, or the first fault, with what was reported on the way. -/
def schema (e : Expr) : Except BuildFault Schema × List Log.Record :=
  (build e).run.run []

end Expr
end Wireform
