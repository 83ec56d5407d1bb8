import SyntaxRecovery.Proofs.Tree.Linking

/-! The trees that calls can build. Whatever the calls and whether they succeed, slots and links
stay in agreement and every chain of parents has an end. -/
namespace SyntaxRecovery

/-- A call that changes a tree. -/
inductive TreeEdit where
  | alloc (kind : NodeKind) (span : Span)
  | placeholder (offset : Nat)
  | setRoot (root : NodeId)
  | detach (id : NodeId)
  | replaceChild (parent old new : NodeId)
  | removeChild (parent child : NodeId)
  | addFlags (id : NodeId) (flags : NodeFlags)
  | setFlags (id : NodeId) (flags : NodeFlags)

def TreeEdit.apply (tree : Tree) : TreeEdit → Except TreeError Tree
  | .alloc kind span => (tree.alloc kind span).map (·.2)
  | .placeholder offset => .ok (tree.placeholder offset).2
  | .setRoot root => tree.setRoot root
  | .detach id => tree.detach id
  | .replaceChild parent old new => tree.replaceChild parent old new
  | .removeChild parent child => tree.removeChild parent child
  | .addFlags id flags => .ok (tree.addFlags id flags)
  | .setFlags id flags => .ok (tree.setFlags id flags)

/-- The root after the call, where it goes through. -/
def TreeEdit.rootAfter (root : Option NodeId) : TreeEdit → Option NodeId
  | .setRoot id => some id
  | _ => root

namespace Tree
variable {tree tree' : Tree}

/-- The tree after a call, which is the same tree where the call fails. -/
def edit (tree : Tree) (edit : TreeEdit) : Tree :=
  match edit.apply tree with
  | .ok changed => changed
  | .error _ => tree

/-- The trees that can be built from nothing or from a list of nodes. -/
inductive Reachable : Tree → Prop
  | empty : Reachable {}
  | linked {nodes : Array Node} {root : Option NodeId} {tree : Tree}
    (h : link nodes root = .ok tree) : Reachable tree
  | edited {tree : Tree} (edit : TreeEdit) (h : Reachable tree) : Reachable (tree.edit edit)

theorem alloc_of_apply {kind : NodeKind} {span : Span}
    (ha : (TreeEdit.alloc kind span).apply tree = .ok tree') :
    ∃ id, tree.alloc kind span = .ok (id, tree') := by
  cases hresult : tree.alloc kind span with
  | error e => simp [TreeEdit.apply, hresult, Except.map] at ha
  | ok result =>
    obtain rfl : result.2 = tree' := by simpa [TreeEdit.apply, hresult, Except.map] using ha
    exact ⟨result.1, rfl⟩

namespace WellFormed

theorem placeholder (h : tree.WellFormed) (offset : Nat) : (tree.placeholder offset).2.WellFormed :=
  h.congr (children_placeholder offset) (parent?_placeholder offset)

theorem detach {id : NodeId} (h : tree.WellFormed) (hd : tree.detach id = .ok tree') :
    tree'.WellFormed := by
  rcases detach_cases h hd with ⟨-, rfl⟩ | ⟨parent, -, hu | he⟩
  · exact h
  · exact h.unlinks hu
  · exact h.exchanges he

theorem setRoot {root : NodeId} (h : tree.WellFormed) (hr : tree.setRoot root = .ok tree') :
    tree'.WellFormed := by
  obtain ⟨node, -, hr⟩ := bind_eq_ok_iff.mp hr
  cases hr
  exact h.congr (fun _ => rfl) fun _ => rfl

theorem apply {edit : TreeEdit} (h : tree.WellFormed) (ha : edit.apply tree = .ok tree') :
    tree'.WellFormed := by
  cases edit with
  | alloc kind span =>
    obtain ⟨id, halloc⟩ := alloc_of_apply ha
    exact h.adopts (alloc_adopts halloc)
  | placeholder offset =>
    cases ha
    exact h.placeholder offset
  | setRoot root => exact h.setRoot ha
  | detach id => exact h.detach ha
  | replaceChild parent old new => exact h.exchanges (replaceChild_exchanges h ha)
  | removeChild parent child => exact h.unlinks (removeChild_unlinks h ha)
  | addFlags id flags =>
    cases ha
    exact h.congr_skeleton (skeleton_addFlags tree id flags)
  | setFlags id flags =>
    cases ha
    exact h.congr_skeleton (skeleton_setFlags tree id flags)

theorem edit (h : tree.WellFormed) (edit : TreeEdit) : (tree.edit edit).WellFormed := by
  unfold Tree.edit
  split
  · next ha => exact h.apply ha
  · exact h

end WellFormed

theorem Reachable.wellFormed (h : tree.Reachable) : tree.WellFormed := by
  induction h with
  | empty => exact wellFormed_empty
  | linked h => exact wellFormed_of_link h
  | edited edit _ ih => exact ih.edit edit

theorem root_of_apply {edit : TreeEdit} (h : tree.WellFormed) (ha : edit.apply tree = .ok tree') :
    tree'.root = edit.rootAfter tree.root := by
  cases edit with
  | alloc kind span =>
    obtain ⟨id, halloc⟩ := alloc_of_apply ha
    obtain ⟨-, -, hnew⟩ := bind_eq_ok_iff.mp halloc
    cases hnew
    exact root_foldl_setParent _ _
  | setRoot root =>
    obtain ⟨node, -, hr⟩ := bind_eq_ok_iff.mp ha
    cases hr
    rfl
  | detach id =>
    rcases detach_cases h ha with ⟨-, rfl⟩ | ⟨parent, -, hu | he⟩
    · rfl
    · exact hu.root_eq
    · exact he.root_eq
  | replaceChild parent old new => exact (replaceChild_exchanges h ha).root_eq
  | removeChild parent child => exact (removeChild_unlinks h ha).root_eq
  | placeholder | addFlags | setFlags =>
    cases ha
    rfl

/-- No call takes a node out of the tree for good. -/
theorem size_le_of_apply {edit : TreeEdit} (h : tree.WellFormed)
    (ha : edit.apply tree = .ok tree') : tree.size ≤ tree'.size := by
  cases edit with
  | alloc kind span =>
    obtain ⟨id, halloc⟩ := alloc_of_apply ha
    obtain ⟨-, -, hnew⟩ := bind_eq_ok_iff.mp halloc
    cases hnew
    simp
  | placeholder offset =>
    cases ha
    simp [Tree.placeholder]
  | setRoot root =>
    obtain ⟨node, -, hr⟩ := bind_eq_ok_iff.mp ha
    cases hr
    exact Nat.le_refl _
  | detach id =>
    rcases detach_cases h ha with ⟨-, rfl⟩ | ⟨parent, -, hu | he⟩
    · exact Nat.le_refl _
    · exact Nat.le_of_eq hu.size_eq.symm
    · exact he.size_le
  | replaceChild parent old new => exact (replaceChild_exchanges h ha).size_le
  | removeChild parent child => exact Nat.le_of_eq (removeChild_unlinks h ha).size_eq.symm
  | addFlags | setFlags =>
    cases ha
    exact Nat.le_of_eq (size_modify _ _ _).symm

theorem root_lt_size_of_apply {edit : TreeEdit} (h : tree.WellFormed)
    (hroot : ∀ root ∈ tree.root, root < tree.size) (ha : edit.apply tree = .ok tree') :
    ∀ root ∈ tree'.root, root < tree'.size := by
  intro root hr
  rw [root_of_apply h ha] at hr
  refine Nat.lt_of_lt_of_le ?_ (size_le_of_apply h ha)
  cases edit with
  | setRoot root' =>
    obtain rfl : root' = root := Option.some.inj hr
    obtain ⟨node, hnode, -⟩ := bind_eq_ok_iff.mp ha
    exact lt_size_of_node? (findDetached_eq_ok_iff.mp hnode).1
  | _ => exact hroot root hr

theorem Reachable.root_lt_size (h : tree.Reachable) : ∀ root ∈ tree.root, root < tree.size := by
  induction h with
  | empty => nofun
  | linked h => exact root_lt_size_of_link h
  | @edited tree edit h ih =>
    unfold Tree.edit
    split
    · next ha => exact root_lt_size_of_apply h.wellFormed ih ha
    · exact ih

/-- The slots of a reachable tree hold nodes of the tree, each node is in one slot of its parent and
in no other, no node is below itself, and its ancestors are its whole chain of parents. -/
theorem Reachable.slots_and_links (h : tree.Reachable) :
    (∀ parent, ∀ child ∈ tree.children parent, child < tree.size) ∧
    (∀ parent child, (tree.children parent).count child =
      if tree.parent? child = some parent then 1 else 0) ∧
    (∀ id, ¬ Relation.TransGen (fun child parent => tree.parent? child = some parent) id id) ∧
    ∀ id, tree.Climbs (tree.parent? id) (tree.ancestors id) := by
  have hwf := h.wellFormed
  refine ⟨fun parent child => hwf.child_lt_size, fun parent child => ?_, fun id => ?_,
    hwf.climbs_ancestors⟩
  · rw [(hwf.nodup parent).count]
    simp only [hwf.linked]
  · rw [← hwf.mem_ancestors_iff]
    exact hwf.not_mem_ancestors id

/-- A statement whose name has been detached, so that a placeholder fills its slot. -/
def refilled : Tree :=
  ((({} : Tree).edit (.alloc (.simpleName "x") ⟨0, 1⟩)).edit
    (.alloc ⟨.expressionStatement, (0, ())⟩ ⟨0, 2⟩)).edit (.detach 0)

theorem slots_and_links_refilled : refilled.Reachable ∧ refilled.children 1 = [2] ∧
    (refilled.children 1).count 2 = 1 ∧ refilled.Climbs (some 1) [1] := by
  have h : refilled.Reachable := .edited _ (.edited _ (.edited _ .empty))
  obtain ⟨-, hcount, -, hclimbs⟩ := h.slots_and_links
  exact ⟨h, by decide, hcount 1 2, hclimbs 2⟩

end Tree
end SyntaxRecovery
