import SyntaxRecovery.Span
import SyntaxRecovery.Token
import SyntaxRecovery.Tree.Flags
import SyntaxRecovery.Tree.Kind

/-! Syntax trees. A node knows its children by their ids; the link to its parent only helps to find
the way up. -/
namespace SyntaxRecovery

structure Node where
  kind : NodeKind
  span : Span
  flags : NodeFlags
  parent : Option NodeId := none
  deriving DecidableEq

structure Tree where
  nodes : Array Node := #[]
  root : Option NodeId := none
  deriving DecidableEq

/-- The name that stands for a mandatory child that was never parsed. -/
def placeholderIdentifier : String := "MISSING"

namespace Node

def shape (node : Node) : NodeShape := node.kind.shape

def isRecovered (node : Node) : Bool := node.flags.contains .recovered

def isProtected (node : Node) : Bool := node.flags.contains .protect

/-- The node is a name that recovery made up. -/
def isMissingName (node : Node) : Bool := node.kind.identifier? == some missingIdentifier

def placeholder (offset : Nat) : Node :=
  { kind := .simpleName placeholderIdentifier, span := .emptyAt offset, flags := .malformed }

end Node

namespace Tree

def size (tree : Tree) : Nat := tree.nodes.size

def node? (tree : Tree) (id : NodeId) : Option Node := tree.nodes[id]?

def parent? (tree : Tree) (id : NodeId) : Option NodeId := (tree.node? id).bind (·.parent)

def children (tree : Tree) (id : NodeId) : List NodeId :=
  ((tree.node? id).map (·.kind.children)).getD []

/-- Changes a node where it stands. -/
def modify (tree : Tree) (id : NodeId) (f : Node → Node) : Tree :=
  { tree with nodes := tree.nodes.modify id f }

def push (tree : Tree) (node : Node) : Tree := { tree with nodes := tree.nodes.push node }

theorem node?_eq_none_iff {tree : Tree} {id : NodeId} : tree.node? id = none ↔ tree.size ≤ id := by
  simp [node?, size]

@[simp] theorem size_modify (tree : Tree) (id : NodeId) (f : Node → Node) :
    (tree.modify id f).size = tree.size := by
  simp [modify, size]

theorem node?_modify (tree : Tree) (id other : NodeId) (f : Node → Node) :
    (tree.modify id f).node? other =
      if id = other then (tree.node? other).map f else tree.node? other := by
  simp [modify, node?, Array.getElem?_modify]

@[simp] theorem size_push (tree : Tree) (node : Node) : (tree.push node).size = tree.size + 1 := by
  simp [push, size]

theorem node?_push (tree : Tree) (node : Node) (id : NodeId) :
    (tree.push node).node? id = if id = tree.size then some node else tree.node? id := by
  by_cases h : id = tree.size <;> simp_all [push, node?, size, Array.getElem?_push]

def addFlags (tree : Tree) (id : NodeId) (flags : NodeFlags) : Tree :=
  tree.modify id fun node => { node with flags := node.flags.union flags }

def setFlags (tree : Tree) (id : NodeId) (flags : NodeFlags) : Tree :=
  tree.modify id ({ · with flags })

/-- At most `limit` steps up from `parent?`. -/
def climb (tree : Tree) : Nat → Option NodeId → List NodeId
  | limit + 1, some id => id :: tree.climb limit (tree.parent? id)
  | _, _ => []

/-- The chain of parents, nearest first. No chain has more members than the tree has nodes. -/
def ancestors (tree : Tree) (id : NodeId) : List NodeId := tree.climb tree.size (tree.parent? id)

def isAncestorOrSelf (tree : Tree) (ancestor id : NodeId) : Bool :=
  ancestor == id || (tree.ancestors id).contains ancestor

/-- The node and what is below it, each node before its children, down to `depth` levels. Each id
comes with its level, that of the first being `level`. -/
def outlineFrom (tree : Tree) : (depth level : Nat) → NodeId → List (NodeId × Nat)
  | 0, _, _ => []
  | depth + 1, level, id =>
    (id, level) :: (tree.children id).flatMap (tree.outlineFrom depth (level + 1))

/-- The nodes below the root with their levels, each node before its children. -/
def outline (tree : Tree) : List (NodeId × Nat) :=
  tree.root.toList.flatMap (tree.outlineFrom tree.size 0)

/-- The nodes below the root, each before its children. -/
def preorder (tree : Tree) : List NodeId := tree.outline.map (·.1)

end Tree

end SyntaxRecovery
