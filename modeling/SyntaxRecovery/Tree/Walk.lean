import SyntaxRecovery.Tree.Basic

/-! Depth-first walks over a tree that may change below them. -/
namespace SyntaxRecovery

/-- What a walk does at a node. `enter` runs on the way down and tells whether to go on to the
children. `leave` runs on the way up, in either case, and may change the tree. Both fail where they
meet an id that the tree does not know. -/
structure Visitor (σ : Type) where
  enter : Tree → NodeId → σ → Option (Bool × σ)
  leave : Tree → NodeId → σ → Option (Tree × σ)

namespace Tree
variable {σ : Type}

/-- Walks down to `depth` levels from a node; none where a node is unknown or lies deeper. The
children are collected before the first of them is entered. -/
def walkFrom (visitor : Visitor σ) : (depth : Nat) → NodeId → Tree × σ → Option (Tree × σ)
  | 0, _, _ => none
  | depth + 1, id, (tree, state) => do
    let (descend, state) ← visitor.enter tree id state
    if descend then
      let node ← tree.node? id
      let (tree, state) ← node.kind.children.foldlM
        (fun reached child => walkFrom visitor depth child reached) (tree, state)
      visitor.leave tree id state
    else visitor.leave tree id state

/-- Walks over a node and all that is below it, in the order of the source text. -/
def walk (visitor : Visitor σ) (tree : Tree) (id : NodeId) (state : σ) : Option (Tree × σ) :=
  walkFrom visitor (tree.size + 1) id (tree, state)

end Tree

end SyntaxRecovery
