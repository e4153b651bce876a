import Wireform.Document.Store
import Wireform.Value.Basic
import Wireform.Text.LowerCase

/-!
# Overrides

Settings from the environment. A variable whose name begins with a chosen word and two underscores names a
place in the settings: the parts of its name between double underscores, in small letters, are the keys on
the way there. Variables are applied in their order. A map that stands in several places changes in all of
them.
-/
namespace Wireform.Settings

/-- The variables of an environment in order; each name occurs once. -/
abbrev Environment := List (String × String)

/-- The environment of some assignments. A variable that is set again keeps its place and takes the last
text. -/
def Environment.ofPairs (pairs : List (String × String)) : Environment :=
  Named.distinct pairs

/-- A text cut at every two underscores, from the left. -/
def splitUnderscores : List Char → List (List Char)
  | [] => [[]]
  | '_' :: '_' :: cs => [] :: splitUnderscores cs
  | c :: cs =>
    match splitUnderscores cs with
    | [] => [[c]]
    | part :: parts => (c :: part) :: parts

/-- The keys that a variable names, if its name begins with the word. -/
def overridePath? (word name : String) : Option (List String) :=
  let start := word.toList ++ ['_', '_']
  let cs := name.toList
  if start.isPrefixOf cs then
    some ((splitUnderscores (cs.drop start.length)).map fun part => Text.lowerCase (String.ofList part))
  else none

/-- Sets the text at the end of a path of keys that begins in the map of a cell. What is missing on the way,
or is no map, becomes an empty map. -/
def setDeep (text : String) : List String → Nat → Document.Store → Document.Store
  | [], _, s => s
  | [key], n, s => s.put n key (.value (.str text))
  | key :: path, n, s =>
    match s.section? n key with
    | some m => setDeep text path m s
    | none => setDeep text path s.cells.size (s.addMap.put n key (.cell s.cells.size))

/-- Applies the variables that begin with the word to the map in a cell. An empty word selects none. -/
def applyOverrides (word : String) (environment : Environment) (n : Nat) (s : Document.Store) :
    Document.Store :=
  if word = "" then s
  else
    environment.foldl
      (fun s item =>
        match overridePath? word item.1 with
        | some path => setDeep item.2 path n s
        | none => s)
      s

/-- A document with the variables applied, if its root is a map. -/
def override (word : String) (environment : Environment) (d : Document.Shared) : Document.Shared :=
  match d.root with
  | .cell n => { d with store := applyOverrides word environment n d.store }
  | .value _ => d

end Wireform.Settings
