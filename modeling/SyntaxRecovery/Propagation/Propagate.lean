import SyntaxRecovery.Propagation.Attribution
import SyntaxRecovery.Propagation.Repair
import SyntaxRecovery.Tree.Walk

/-! Propagation of recovery over a tree: one walk flags every node whose shape recovery made up or
changed, and repairs the shapes that it gets wrong. -/
namespace SyntaxRecovery

/-- The repair for a node of the shape. Annotations are looked at outside of blocks only. -/
def Tree.repair (tree : Tree) (id : NodeId) (shape : NodeShape) (inBody : Bool) : Option Tree :=
  match shape with
  | .expressionStatement => tree.collapseAssignment id
  | .forStatement => tree.dropForDeclaration id
  | .variableDeclarationStatement => tree.clearInitializers id
  | .annotationNormal | .annotationSingle => if inBody then some tree else tree.flagTruncated id
  | _ => some tree

namespace Attribution

/-- Inside of a block only nodes that an edit falls into are descended into. -/
def enter (tree : Tree) (id : NodeId) (state : Attribution) : Option (Bool × Attribution) := do
  let node ← tree.node? id
  return (¬ state.InBody ∨ state.TouchesEdits node.span,
    if node.shape = .block then { state with depth := state.depth + 1 } else state)

/-- Closes a block. With the outermost one the pending nodes get their tokens. -/
def leaveBlock (tree : Tree) (state : Attribution) : Option (Tree × Attribution) :=
  let state := { state with depth := state.depth - 1 }
  if state.InBody then some (tree, state) else state.flush tree

def leave (tree : Tree) (id : NodeId) (state : Attribution) : Option (Tree × Attribution) := do
  let node ← tree.node? id
  let (tree, state) ← if node.shape = .block then leaveBlock tree state else some (tree, state)
  let (tree, state) ← leaveNode tree id node state
  return (← tree.repair id node.shape state.InBody, state)

def visitor : Visitor Attribution := ⟨enter, leave⟩

end Attribution

/-- Flags and repairs the tree in the light of the edits of the log, and marks the diagnostics that
fall into it as used. Whether an edit has been consumed does not matter. None is the answer where
the tree names unknown nodes. -/
def propagate (tree : Tree) (diagnostics : List Diagnostic) (log : EditLog) :
    Option (Tree × List Diagnostic) :=
  match tree.root with
  | none => some (tree, diagnostics)
  | some root => do
    let (tree, state) ← tree.walk Attribution.visitor root (.start log diagnostics)
    return (tree, state.concerns.map (·.diagnostic))

end SyntaxRecovery
