import SyntaxRecovery.Tree.Basic

/-! Changes to the structure of a tree. Every change goes through the tree, so that no node is
attached twice or below itself. -/
namespace SyntaxRecovery

inductive TreeError where
  | unknownNode (id : NodeId)
  | alreadyAttached (child parent : NodeId)
  | cycle (child parent : NodeId)
  | notAChild (child parent : NodeId)
  | mandatoryChild (child parent : NodeId)
  | protectedNode (id : NodeId)
  deriving DecidableEq, Repr

def TreeError.message : TreeError → String
  | .unknownNode id => s!"node #{id} does not exist"
  | .alreadyAttached child parent => s!"node #{child} is already attached to #{parent}"
  | .cycle child parent => s!"attaching #{child} under #{parent} would create a cycle"
  | .notAChild child parent => s!"node #{child} is not a child of #{parent}"
  | .mandatoryChild child parent =>
    s!"node #{child} fills a mandatory slot of #{parent} and cannot be removed"
  | .protectedNode id => s!"node #{id} is protected against modification"

namespace Tree

def find (tree : Tree) (id : NodeId) : Except TreeError Node :=
  match tree.node? id with
  | some node => .ok node
  | none => .error (.unknownNode id)

/-- The node, if its slots may be changed. -/
def findUnprotected (tree : Tree) (id : NodeId) : Except TreeError Node := do
  let node ← tree.find id
  if node.isProtected then .error (.protectedNode id) else .ok node

/-- The node, if it has no parent. -/
def findDetached (tree : Tree) (id : NodeId) : Except TreeError Node := do
  let node ← tree.find id
  match node.parent with
  | some parent => .error (.alreadyAttached id parent)
  | none => .ok node

def setKind (tree : Tree) (id : NodeId) (kind : NodeKind) : Tree := tree.modify id ({ · with kind })

def setParent (tree : Tree) (id : NodeId) (parent : Option NodeId) : Tree :=
  tree.modify id ({ · with parent })

/-- The ids are known, detached and all different, so that a new node `parent` can take them.
`earlier` are those already looked at. -/
def checkAdoption (tree : Tree) (parent : NodeId) (earlier : List NodeId) :
    List NodeId → Except TreeError Unit
  | [] => .ok ()
  | child :: rest => do
    let _ ← tree.findDetached child
    if child ∈ earlier then .error (.alreadyAttached child parent)
    tree.checkAdoption parent (child :: earlier) rest

/-- Adds a node that adopts the children it names. -/
def alloc (tree : Tree) (kind : NodeKind) (span : Span) : Except TreeError (NodeId × Tree) := do
  let id := tree.size
  tree.checkAdoption id [] kind.children
  let tree := kind.children.foldl (fun tree child => tree.setParent child (some id)) tree
  return (id, tree.push { kind, span, flags := .parsed })

/-- Adds a name that stands for a child that was never parsed. -/
def placeholder (tree : Tree) (offset : Nat) : NodeId × Tree :=
  (tree.size, tree.push (.placeholder offset))

def setRoot (tree : Tree) (root : NodeId) : Except TreeError Tree := do
  let _ ← tree.findDetached root
  return { tree with root := some root }

/-- Unlinks a node from its parent. A slot that must not be empty gets a placeholder. -/
def detach (tree : Tree) (id : NodeId) : Except TreeError Tree := do
  let node ← tree.find id
  match node.parent with
  | none => return tree
  | some parent =>
    let holder ← tree.findUnprotected parent
    let tree := match holder.kind.take id with
      | .absent => tree
      | .taken kind => tree.setKind parent kind
      | .mandatory =>
        let (hole, tree) := tree.placeholder node.span.start
        (tree.setKind parent ((holder.kind.swap? id hole).getD holder.kind)).setParent hole parent
    return tree.setParent id none

/-- Puts the detached node `new` into the slot of `parent` that holds `old`. -/
def replaceChild (tree : Tree) (parent old new : NodeId) : Except TreeError Tree := do
  let holder ← tree.findUnprotected parent
  let _ ← tree.findDetached new
  let _ ← tree.find old
  if tree.isAncestorOrSelf new parent then .error (.cycle new parent)
  match holder.kind.swap? old new with
  | none => .error (.notAChild old parent)
  | some kind => return ((tree.setKind parent kind).setParent old none).setParent new parent

/-- Takes `child` out of an optional slot or a list of `parent`. -/
def removeChild (tree : Tree) (parent child : NodeId) : Except TreeError Tree := do
  let holder ← tree.findUnprotected parent
  let _ ← tree.find child
  match holder.kind.take child with
  | .absent => .error (.notAChild child parent)
  | .mandatory => .error (.mandatoryChild child parent)
  | .taken kind => return (tree.setKind parent kind).setParent child none

end Tree

end SyntaxRecovery
