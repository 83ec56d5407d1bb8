import SyntaxRecovery.Proofs.Propagation.Immediate
import SyntaxRecovery.Proofs.Propagation.Repairs
import SyntaxRecovery.Proofs.Tree.Payload

/-! What the nodes of a tree keep whatever repairs and flags do to it. A node may get other
children, unless it is protected, and another parent, and it may be flagged. New nodes are names
that stand for children never parsed. -/
namespace SyntaxRecovery

namespace Node
variable {node other next : Node}

/-- `other` is the node with other links, or with the flag of recovery. The children of a protected
node stay. -/
structure Resembles (node other : Node) : Prop where
  span_eq : other.span = node.span
  blank_eq : other.kind.blank = node.kind.blank
  flags_eq : other.flags = node.flags ∨ other.flags = node.flags.union .recovered
  kind_eq : node.isProtected = true → other.kind = node.kind

theorem isMissingName_of_shape (h : node.shape ≠ .simpleName) : node.isMissingName = false := by
  unfold isMissingName NodeKind.identifier?
  split
  · next hkind => exact absurd (congrArg NodeKind.shape hkind) h
  · rfl

theorem shape_of_isMissingName (h : node.isMissingName = true) : node.shape = .simpleName := by
  by_contra hshape
  rw [isMissingName_of_shape hshape] at h
  cases h

theorem isMissingName_placeholder (offset : Nat) : (placeholder offset).isMissingName = false := by
  change (some placeholderIdentifier == some missingIdentifier) = false
  decide

theorem isProtected_union (flags : NodeFlags) :
    (flags.union .recovered).contains .protect = flags.contains .protect := by
  have hbits (bits : UInt8) : (bits ||| 8) &&& 4 = bits &&& 4 := by
    apply UInt8.eq_of_toBitVec_eq
    rw [UInt8.toBitVec_and, UInt8.toBitVec_or, UInt8.toBitVec_and, BitVec.and_or_distrib_right]
    simp
  simp only [NodeFlags.contains, NodeFlags.union, NodeFlags.recovered, NodeFlags.protect, hbits]

namespace Resembles

theorem refl (node : Node) : node.Resembles node := ⟨rfl, rfl, .inl rfl, fun _ => rfl⟩

theorem shape_eq (h : node.Resembles other) : other.shape = node.shape :=
  NodeKind.shape_eq_of_blank h.blank_eq

theorem isProtected_eq (h : node.Resembles other) : other.isProtected = node.isProtected := by
  unfold isProtected
  rcases h.flags_eq with heq | heq
  · rw [heq]
  · rw [heq, isProtected_union]

theorem isMissingName_eq (h : node.Resembles other) : other.isMissingName = node.isMissingName := by
  rw [isMissingName, ← NodeKind.identifier?_blank, h.blank_eq, NodeKind.identifier?_blank]
  rfl

theorem trans (h : node.Resembles other) (h' : other.Resembles next) : node.Resembles next where
  span_eq := h'.span_eq.trans h.span_eq
  blank_eq := h'.blank_eq.trans h.blank_eq
  flags_eq := by
    rcases h'.flags_eq with heq' | heq' <;> rcases h.flags_eq with heq | heq <;> rw [heq', heq]
    · exact .inl rfl
    · exact .inr rfl
    · exact .inr rfl
    · exact .inr (NodeFlags.union_recovered node.flags)
  kind_eq hp := (h'.kind_eq (h.isProtected_eq.trans hp)).trans (h.kind_eq hp)

end Resembles

theorem resembles_flagged (node : Node) :
    node.Resembles { node with flags := node.flags.union .recovered } :=
  ⟨rfl, rfl, .inr rfl, fun _ => rfl⟩

/-- A node may get another parent, and other children if it is not protected. -/
theorem resembles_of_links {kind : NodeKind} (link : Option NodeId)
    (h : kind = node.kind ∨ kind.blank = node.kind.blank ∧ node.isProtected = false) :
    node.Resembles { node with kind, parent := link } := by
  rcases h with rfl | ⟨hblank, hfree⟩
  · exact ⟨rfl, rfl, .inl rfl, fun _ => rfl⟩
  · refine ⟨rfl, hblank, .inl rfl, fun hp => ?_⟩
    rw [hp] at hfree
    cases hfree

end Node

namespace Tree
variable {tree tree' tree'' : Tree} {id parent child : NodeId} {node : Node}

/-- Nodes stay what they are, and only names that stand for children never parsed come anew. -/
structure Keeps (tree tree' : Tree) : Prop where
  size_le : tree.size ≤ tree'.size
  resembles : ∀ id node, tree.node? id = some node →
    ∃ other, tree'.node? id = some other ∧ node.Resembles other
  fresh : ∀ id node, tree.size ≤ id → tree'.node? id = some node →
    ∃ offset, (Node.placeholder offset).Resembles node

namespace Keeps

theorem refl (tree : Tree) : tree.Keeps tree where
  size_le := Nat.le_refl _
  resembles _ node hnode := ⟨node, hnode, .refl node⟩
  fresh _ _ hle hnode := absurd (lt_size_of_node? hnode) (Nat.not_lt_of_le hle)

theorem trans (h : tree.Keeps tree') (h' : tree'.Keeps tree'') : tree.Keeps tree'' where
  size_le := Nat.le_trans h.size_le h'.size_le
  resembles id node hnode := by
    obtain ⟨other, hother, hres⟩ := h.resembles id node hnode
    obtain ⟨last, hlast, hres'⟩ := h'.resembles id other hother
    exact ⟨last, hlast, hres.trans hres'⟩
  fresh id node hle hnode := by
    by_cases hid : id < tree'.size
    · obtain ⟨other, hother⟩ := node?_of_lt_size hid
      obtain ⟨offset, hnew⟩ := h.fresh id other hle hother
      obtain ⟨last, hlast, hres⟩ := h'.resembles id other hother
      obtain rfl := Option.some.inj (hnode.symm.trans hlast)
      exact ⟨offset, hnew.trans hres⟩
    · exact h'.fresh id node (Nat.le_of_not_lt hid) hnode

/-- A node of the later tree is a node of the earlier one, or a new name. -/
theorem of_node? (h : tree.Keeps tree') {other : Node} (hother : tree'.node? id = some other)
    (hshape : other.shape ≠ .simpleName ∨ other.isMissingName = true) :
    ∃ node, tree.node? id = some node ∧ node.Resembles other := by
  by_cases hid : id < tree.size
  · obtain ⟨node, hnode⟩ := node?_of_lt_size hid
    obtain ⟨last, hlast, hres⟩ := h.resembles id node hnode
    obtain rfl := Option.some.inj (hother.symm.trans hlast)
    exact ⟨node, hnode, hres⟩
  · obtain ⟨offset, hnew⟩ := h.fresh id other (Nat.le_of_not_lt hid) hother
    rcases hshape with hshape | hmissing
    · exact absurd hnew.shape_eq hshape
    · rw [hnew.isMissingName_eq, Node.isMissingName_placeholder] at hmissing
      cases hmissing

end Keeps

theorem keeps_modify {f : Node → Node}
    (hf : ∀ node, tree.node? id = some node → node.Resembles (f node)) :
    tree.Keeps (tree.modify id f) where
  size_le := Nat.le_of_eq (size_modify tree id f).symm
  resembles other node hnode := by
    rw [node?_modify]
    split
    · next heq =>
      subst heq
      rw [hnode]
      exact ⟨f node, rfl, hf node hnode⟩
    · exact ⟨node, hnode, .refl node⟩
  fresh other node hle hnode := by
    have hlt := lt_size_of_node? hnode
    rw [size_modify] at hlt
    exact absurd hlt (Nat.not_lt_of_le hle)

theorem keeps_addFlags (tree : Tree) (id : NodeId) : tree.Keeps (tree.addFlags id .recovered) :=
  keeps_modify fun node _ => node.resembles_flagged

theorem keeps_setParent (tree : Tree) (id : NodeId) (link : Option NodeId) :
    tree.Keeps (tree.setParent id link) :=
  keeps_modify fun _ _ => Node.resembles_of_links link (.inl rfl)

theorem keeps_setKind {kind : NodeKind} (hnode : tree.node? id = some node)
    (hblank : kind.blank = node.kind.blank) (hfree : node.isProtected = false) :
    tree.Keeps (tree.setKind id kind) := by
  refine keeps_modify fun other hother => ?_
  obtain rfl := Option.some.inj (hnode.symm.trans hother)
  exact Node.resembles_of_links node.parent (.inr ⟨hblank, hfree⟩)

theorem keeps_markAll (tree : Tree) (marked : Finset NodeId) :
    tree.Keeps (tree.markAll marked) where
  size_le := Nat.le_of_eq size_markAll.symm
  resembles id node hnode := by
    rw [node?_markAll, hnode]
    refine ⟨_, rfl, ?_⟩
    dsimp only
    split
    · exact node.resembles_flagged
    · exact .refl node
  fresh id node hle hnode := by
    have hlt := lt_size_of_node? hnode
    rw [size_markAll] at hlt
    exact absurd hlt (Nat.not_lt_of_le hle)

end Tree
end SyntaxRecovery
