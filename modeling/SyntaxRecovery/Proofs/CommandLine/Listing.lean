import SyntaxRecovery.CommandLine.Render
import SyntaxRecovery.Proofs.Propagation.Safety
import SyntaxRecovery.Proofs.Tree.Traversals

/-! The lines of a tree. They stand in the order in which all the other ways over the tree meet its
nodes, and the spaces in front of each say how far it is from the root. -/
namespace SyntaxRecovery
open CommandLine

/-- The spaces in front of a line do not depend on the rest of it. -/
theorem CommandLine.nodeLine_eq (id : NodeId) (level : Nat) (node : Node) :
    nodeLine id level node =
      String.ofList (List.replicate (2 * level) ' ') ++ nodeLine id 0 node := by
  simp [nodeLine, String.append_assoc]

namespace Tree
variable {tree : Tree} {root id : NodeId}

/-- From `top` the slots lead down to `id`. -/
def Reaches (tree : Tree) (top id : NodeId) : Prop :=
  Relation.ReflTransGen (fun parent child => child ∈ tree.children parent) top id

theorem WellFormed.reaches_iff (h : tree.WellFormed) :
    tree.Reaches root id ↔ tree.Below root id := by
  have hswap : (fun parent child => child ∈ tree.children parent) =
      Function.swap fun child parent => tree.parent? child = some parent :=
    funext fun parent => funext fun child => propext (h.linked parent child)
  rw [Reaches, hswap, Relation.reflTransGen_swap, Below]

/-- The number of the nodes properly above one up to `top`. -/
def levelBelow (tree : Tree) (top id : NodeId) : Nat :=
  (tree.ancestors id).countP (tree.isAncestorOrSelf top)

theorem level_of_mem_outline (hwf : tree.WellFormed) (hroot : tree.root = some root)
    (hknown : root < tree.size) {item : NodeId × Nat} (h : item ∈ tree.outline) :
    item.2 = tree.levelBelow root item.1 := by
  have hbelow : tree.Below root item.1 :=
    (mem_preorder_iff hwf hroot hknown).mp (List.mem_map_of_mem h)
  rw [outline_of_root hroot] at h
  have hlevel := level_outlineFrom hwf h
  have hcount := countP_ancestors hwf hbelow
  rw [levelBelow]
  omega

/-- The piece of text is the line of the node: its spaces, its entry and a line feed. -/
def HasLine (tree : Tree) (root id : NodeId) (piece : String) : Prop :=
  ∃ node, tree.node? id = some node ∧
    piece = String.ofList (List.replicate (2 * tree.levelBelow root id) ' ') ++
      nodeLine id 0 node ++ "\n"

/-- Nodes that the tree has are written with one line each. -/
theorem forall₂_nodeLine {items : List (NodeId × Nat)} (h : ∀ item ∈ items, item.1 < tree.size) :
    List.Forall₂ (fun item line => ∃ node, tree.node? item.1 = some node ∧
      line = nodeLine item.1 item.2 node) items
      (items.filterMap fun (id, level) => (tree.node? id).map (nodeLine id level)) := by
  induction items with
  | nil => exact .nil
  | cons item items ih =>
    obtain ⟨id, level⟩ := item
    obtain ⟨hid, hitems⟩ := List.forall_mem_cons.mp h
    obtain ⟨node, hnode⟩ := node?_of_lt_size hid
    simp only [List.filterMap_cons, hnode, Option.map_some]
    exact .cons ⟨node, hnode, rfl⟩ (ih hitems)

/-- The text of the tree has one piece for each node, in order. -/
theorem lines_treeLines (hwf : tree.WellFormed) (hroot : tree.root = some root)
    (hknown : root < tree.size) : ∃ pieces, lines (treeLines tree) = String.join pieces ∧
      List.Forall₂ (tree.HasLine root) tree.preorder pieces := by
  refine ⟨(treeLines tree).map (· ++ "\n"), rfl, ?_⟩
  have hitems : ∀ item ∈ tree.outline, item.1 < tree.size := fun item hitem =>
    ((mem_preorder_iff hwf hroot hknown).mp (List.mem_map_of_mem hitem)).lt_size hknown
  have hlevels : ∀ item ∈ tree.outline, item.2 = tree.levelBelow root item.1 :=
    fun _ => level_of_mem_outline hwf hroot hknown
  rw [preorder, List.forall₂_map_left_iff, List.forall₂_map_right_iff]
  have hboth := (List.forall₂_and_left _ _).mpr ⟨hlevels, forall₂_nodeLine hitems⟩
  refine hboth.imp fun item line => ?_
  rintro ⟨hlevel, node, hnode, rfl⟩
  exact ⟨node, hnode, by rw [nodeLine_eq, hlevel]⟩

/-- In a tree with a root three ways lead over the same nodes in the same order. The loop with a
stack comes to its end and lists each node that slots lead to from the root, once. A walk that goes
below every node and changes nothing enters them in this order and leaves each after its children.
And the text of the tree, from a loop that keeps count of the levels, has a line for each, with two
spaces for each node above it up to the root. -/
theorem traversals_agree {σ : Type} {visitor : Visitor σ} (hwf : tree.WellFormed)
    (hroot : tree.root = some root) (hknown : root < tree.size) (hvisitor : visitor.Surveys tree)
    (state : σ) :
    (Stack.drain tree.children tree.size [root] = some tree.preorder ∧ tree.preorder.Nodup ∧
      ∀ id, id ∈ tree.preorder ↔ tree.Reaches root id) ∧
    (∃ state' moments, tree.walk visitor root state = some (tree, state') ∧
      tree.walk visitor.recorded root (state, []) = some (tree, state', moments) ∧
      WalkEvent.Nested (moments.map (·.event)) ∧
      WalkEvent.entered (moments.map (·.event)) = tree.preorder ∧
      WalkEvent.left (moments.map (·.event)) = tree.postorder ∧
      tree.postorder.Perm tree.preorder) ∧
    Stack.drain tree.levelled tree.size [(root, 0)] = some tree.outline ∧
    ∃ pieces, lines (treeLines tree) = String.join pieces ∧
      List.Forall₂ (tree.HasLine root) tree.preorder pieces := by
  have hreached (id : NodeId) : id ∈ tree.preorder ↔ tree.Reaches root id := by
    rw [mem_preorder_iff hwf hroot hknown, hwf.reaches_iff]
  exact ⟨⟨drain_children hwf hroot hknown, nodup_preorder hwf hroot hknown, hreached⟩,
    walk_of_surveys hvisitor hwf hroot hknown state, drain_levelled hwf hroot hknown,
    lines_treeLines hwf hroot hknown⟩

/-- The visitor that only goes down. -/
def descender : Visitor Unit where
  enter _ _ state := some (true, state)
  leave tree _ state := some (tree, state)

theorem traversals_agree_danglingAssignment :
    Stack.drain danglingAssignment.children 5 [4] = some [4, 3, 2, 0, 1] ∧
    (∃ state moments, danglingAssignment.walk descender.recorded 4 ((), []) =
        some (danglingAssignment, state, moments) ∧
      WalkEvent.entered (moments.map (·.event)) = [4, 3, 2, 0, 1] ∧
      WalkEvent.left (moments.map (·.event)) = [0, 1, 2, 3, 4]) ∧
    danglingAssignment.levelBelow 4 1 = 3 ∧
    ∃ pieces, lines (treeLines danglingAssignment) = String.join pieces ∧
      List.Forall₂ (danglingAssignment.HasLine 4) [4, 3, 2, 0, 1] pieces := by
  have hlink : link danglingAssignment.nodes danglingAssignment.root = .ok danglingAssignment := by
    decide +kernel
  have hvisitor : descender.Surveys danglingAssignment :=
    ⟨fun _ _ state => ⟨state, rfl⟩, fun _ _ state => ⟨state, rfl⟩⟩
  obtain ⟨⟨hdrain, -⟩, ⟨state, moments, -, hrecorded, -, hentered, hleft, -⟩, -, hpieces⟩ :=
    traversals_agree (wellFormed_of_link hlink) rfl (by decide) hvisitor ()
  have hpreorder : danglingAssignment.preorder = [4, 3, 2, 0, 1] := by decide +kernel
  have hpostorder : danglingAssignment.postorder = [0, 1, 2, 3, 4] := by decide +kernel
  rw [hpreorder] at hdrain hentered hpieces
  rw [hpostorder] at hleft
  exact ⟨hdrain, ⟨state, moments, hrecorded, hentered, hleft⟩, by decide +kernel, hpieces⟩

end Tree
end SyntaxRecovery
