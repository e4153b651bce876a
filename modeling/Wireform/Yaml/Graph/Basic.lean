import Wireform.Yaml.Tag

/-!
# Graphs of nodes

The nodes of a document by number. A node may stand in several places, even below itself, since an alias is
nothing but the number of the node that it stands for.
-/
namespace Wireform.Yaml

/-- What a node holds: a text, or the numbers of other nodes. -/
inductive Content
  | scalar (text : List Char)
  | sequence (items : List Nat)
  | mapping (entries : List (Nat × Nat))

structure Node where
  tag : Tag
  content : Content

/-- A node that is not written at all. -/
def Node.empty : Node := ⟨.null, .scalar []⟩

structure Graph where
  nodes : Array Node

namespace Graph

def empty : Graph := ⟨#[]⟩

def node (g : Graph) (n : Nat) : Node :=
  g.nodes.getD n .empty

def tag (g : Graph) (n : Nat) : Tag :=
  (g.node n).tag

def content (g : Graph) (n : Nat) : Content :=
  (g.node n).content

/-- The entries of a mapping; other nodes have none. -/
def entries (g : Graph) (n : Nat) : List (Nat × Nat) :=
  match g.content n with
  | .mapping entries => entries
  | _ => []

def add (node : Node) (g : Graph) : Graph :=
  ⟨g.nodes.push node⟩

def setContent (n : Nat) (content : Content) (g : Graph) : Graph :=
  ⟨g.nodes.modify n fun node => { node with content := content }⟩

def setTag (n : Nat) (tag : Tag) (g : Graph) : Graph :=
  ⟨g.nodes.modify n fun node => { node with tag := tag }⟩

end Graph
end Wireform.Yaml
