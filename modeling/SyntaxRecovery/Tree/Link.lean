import SyntaxRecovery.Tree.Edit

/-! Trees from lists of nodes: the links to the parents are found from the slots. -/
namespace SyntaxRecovery.Tree

/-- Links `child` to `parent`, which has it in a slot. -/
def adopt (parent : NodeId) (tree : Tree) (child : NodeId) : Except TreeError Tree := do
  let node ← tree.find child
  if child = parent then .error (.cycle child parent)
  match node.parent with
  | some earlier => .error (.alreadyAttached child earlier)
  | none => return tree.setParent child parent

def adoptAll (tree : Tree) (kinds : List NodeKind) : Except TreeError Tree :=
  kinds.zipIdx.foldlM (fun tree (kind, id) => kind.children.foldlM (adopt id) tree) tree

/-- How far the check for cycles is with a node: not met yet, on the chain under way, or on a chain
that came to an end. -/
inductive Mark where
  | unseen
  | onPath
  | settled
  deriving DecidableEq

/-- There are fewer unseen nodes once one of them is on the path. -/
theorem count_unseen_lt {marks : Array Mark} {id : NodeId} (h : marks[id]? = some .unseen) :
    (marks.setIfInBounds id .onPath).count .unseen < marks.count .unseen := by
  obtain ⟨hid, hmark⟩ := Array.getElem?_eq_some_iff.mp h
  have hpos : 0 < marks.count .unseen := Array.count_pos_iff.mpr (hmark ▸ Array.getElem_mem hid)
  have hlt : marks.count .unseen - 1 < marks.count .unseen := Nat.sub_lt hpos Nat.one_pos
  simpa [Array.setIfInBounds, hid, Array.count_set, hmark] using hlt

/-- Goes up a chain of parents that has got to `next`, marks the nodes and puts them on the path,
the last first. A settled node ends the chain; one that is on the path already closes a cycle. -/
def walkChain (tree : Tree) (marks : Array Mark) (path : List NodeId) (next : Option NodeId) :
    Except TreeError (Array Mark × List NodeId) :=
  match next with
  | none => .ok (marks, path)
  | some id =>
    match _h : marks[id]? with
    | none | some .settled => .ok (marks, path)
    | some .onPath => .error (.cycle id ((tree.parent? id).getD id))
    | some .unseen => tree.walkChain (marks.setIfInBounds id .onPath) (id :: path) (tree.parent? id)
  termination_by marks.count .unseen
  decreasing_by exact count_unseen_lt _h

/-- Settles the nodes of the chain from `id`. -/
def settleChain (tree : Tree) (marks : Array Mark) (id : NodeId) :
    Except TreeError (Array Mark) := do
  let (marks, path) ← tree.walkChain marks [] (some id)
  return path.foldl (fun marks id => marks.setIfInBounds id .settled) marks

/-- Every node has at most one parent, so that a cycle is a chain of parents that runs back into
itself. -/
def checkAcyclic (tree : Tree) : Except TreeError Unit := do
  let _ ← (List.range tree.size).foldlM tree.settleChain (Array.replicate tree.size .unseen)

/-- The tree of the given nodes, whatever parents they claim to have. Refused are slots and a root
with unknown ids, nodes in more than one slot, and cycles. -/
def link (nodes : Array Node) (root : Option NodeId) : Except TreeError Tree := do
  let bare : Tree := { nodes := nodes.map ({ · with parent := none }), root }
  let tree ← bare.adoptAll (nodes.toList.map (·.kind))
  if let some id := root then
    let _ ← tree.find id
  tree.checkAcyclic
  return tree

end SyntaxRecovery.Tree
