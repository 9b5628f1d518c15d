/-! # Concrete syntax trees

A tree is an arena: its nodes stand in one array, and a production names its children by their
indices.  The root is the first node.  A `Builder` appends nodes and links each one below its parent.

* A parent that the builder does not hold, or that is a token, is ignored: the node is stored but
  linked to nothing.
* An id is only an index, so an id that another builder gave out names the node of the same index
  here, which can be the very node that is being added. -/

namespace ConcreteSyntax

/-- The index of a node in its tree. -/
structure NodeId where
  index : Nat
deriving DecidableEq, Repr

/-- An id in words. -/
def NodeId.label (i : NodeId) : String := s!"#{i.index}"

/-- A terminal with its text and the place of its first character: lines count from one, columns
from zero. -/
structure Token (R : Type) where
  kind : R
  text : String
  line : Nat
  column : Nat
deriving Repr

/-- A node of a tree. -/
inductive Node (R : Type) where
  | token (t : Token R)
  | production (rule : R) (children : Array NodeId)
deriving Repr

variable {R : Type}

namespace Node

/-- The token, if the node is one. -/
def token? : Node R → Option (Token R)
  | token t => some t
  | production .. => none

/-- The children of a production; a token has none. -/
def children : Node R → Array NodeId
  | token _ => #[]
  | production _ cs => cs

def isToken (n : Node R) : Bool := n.token?.isSome

/-- The node with one more child, if it is a production. -/
def addChild (n : Node R) (child : NodeId) : Node R :=
  match n with
  | token t => token t
  | production r cs => production r (cs.push child)

end Node

/-- A rooted tree: at least one node, the first of which is the root. -/
structure Tree (R : Type) where
  nodes : Array (Node R)
  size_pos : 0 < nodes.size

namespace Tree

variable (t : Tree R)

def root : NodeId := ⟨0⟩

/-- The number of nodes, linked or not. -/
def size : Nat := t.nodes.size

def node? (i : NodeId) : Option (Node R) := t.nodes[i.index]?

/-- The root itself. -/
def rootNode : Node R :=
  have := t.size_pos
  t.nodes[0]

/-- All tokens, in the order of the arena. -/
def tokens : List (Token R) := t.nodes.toList.filterMap Node.token?

/-- The texts of all tokens, joined. -/
def text : String := String.join (t.tokens.map Token.text)

/-- The depth of the deepest node that `steps` rounds with a work list of nodes and their depths
find, or nothing while the list is not used up. -/
def deepestWithin : Nat → List (NodeId × Nat) → Nat → Option Nat
  | _, [], best => some best
  | 0, _ :: _, _ => none
  | steps + 1, (i, depth) :: todo, best =>
    let children := ((t.node? i).map Node.children).getD #[]
    deepestWithin steps (children.foldl (fun todo c => (c, depth + 1) :: todo) todo)
      (max best depth)

/-- The number of nodes on the longest path down from the root.  Every linked node is visited once,
so as many rounds as there are nodes use the work list up; a tree that holds a node below itself has
no height and gets zero. -/
def height : Nat := (t.deepestWithin t.size [(root, 1)] 0).getD 0

end Tree

/-- A tree under construction. -/
structure Builder (R : Type) where
  nodes : Array (Node R) := #[]

namespace Builder

/-- Append a node and link it below its parent. -/
def push (b : Builder R) (parent : Option NodeId) (n : Node R) : Builder R × NodeId :=
  let child : NodeId := ⟨b.nodes.size⟩
  let nodes := b.nodes.push n
  match parent with
  | none => (⟨nodes⟩, child)
  | some p => (⟨nodes.modify p.index (·.addChild child)⟩, child)

/-- The finished tree, if it has a node. -/
def finish (b : Builder R) : Option (Tree R) :=
  if h : 0 < b.nodes.size then some ⟨b.nodes, h⟩ else none

end Builder

end ConcreteSyntax
