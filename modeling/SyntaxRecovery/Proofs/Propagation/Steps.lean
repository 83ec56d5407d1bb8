import SyntaxRecovery.Propagation.Propagate

/-! The steps at a node that a walk leaves, each as one thing done after another. -/
namespace SyntaxRecovery

/-- Flags a node where there is a reason to. -/
def Tree.flagIf (tree : Tree) (id : NodeId) (reason : Bool) : Option Tree :=
  if reason then tree.flagRecovered id else some tree

namespace Attribution
variable (tree : Tree) (id : NodeId) (node : Node) (state : Attribution)

theorem leaveOutline_eq : state.leaveOutline tree id node =
    if node.shape.isOutlineUnit then
      (tree.flagIf id (state.concerns.any fun concern => concern.Hits node.span)) >>= fun tree =>
        some (tree, state.settle node.span)
    else some (tree, state) := by
  unfold leaveOutline Tree.flagIf
  split
  · split <;> rfl
  · rfl

theorem await_eq : state.await tree id node =
    if state.offers.isEmpty then some (tree, state) else
      (if state.lastStop = some node.span.stop then some (tree, state) else state.flush tree) >>=
        fun reached => some (reached.1, { reached.2 with pending := id :: reached.2.pending }) := by
  unfold await
  split
  · rfl
  · split <;> rfl

/-- The node claims a removed or replaced stretch. -/
def claimsStretch : Bool := state.stretches.any fun stretch =>
  ¬ stretch.claimed ∧ node.span.Encloses stretch.start stretch.last

theorem leaveBody_eq : state.leaveBody tree id node =
    await tree id node (state.settle node.span) >>= fun reached =>
      (reached.1.flagIf id (reached.2.claimsStretch node)) >>= fun tree =>
        some (tree, { reached.2 with
          stretches := reached.2.stretches.map (Stretch.claim node.span) }) := by
  unfold leaveBody
  cases await tree id node (state.settle node.span) with
  | none => rfl
  | some reached =>
    obtain ⟨tree', state'⟩ := reached
    change (if state'.claimsStretch node then _ else _) =
      ((if state'.claimsStretch node then tree'.flagRecovered id else some tree') >>= _)
    split <;> rfl

theorem leaveNode_eq : state.leaveNode tree id node =
    (if state.InBody then state.leaveBody tree id node else state.leaveOutline tree id node) >>=
      fun reached => some (reached.1, { reached.2 with lastStop := some node.span.stop }) := by
  unfold leaveNode
  split <;> rfl

variable {tree id node}

theorem leave_eq (hnode : tree.node? id = some node) : state.leave tree id =
    (if node.shape = .block then state.leaveBlock tree else some (tree, state)) >>= fun reached =>
      reached.2.leaveNode reached.1 id node >>= fun left =>
        (left.1.repair id node.shape left.2.InBody).map (·, left.2) := by
  have hmap (changed : Option Tree) (state : Attribution) :
      changed.map (·, state) = changed >>= fun tree => some (tree, state) := by
    cases changed <;> rfl
  simp only [leave, hnode, Option.bind_eq_bind, Option.bind_some, hmap]
  split <;> rfl

variable {state}

/-- Closing a block counts it off, and changes no diagnostic. -/
theorem of_leaveBlock {reached : Tree × Attribution} (h : state.leaveBlock tree = some reached) :
    reached.2.concerns = state.concerns ∧ reached.2.depth = state.depth - 1 := by
  simp only [leaveBlock] at h
  split at h
  · cases h
    exact ⟨rfl, rfl⟩
  · simp only [flush, Option.bind_eq_bind, Option.bind_eq_some_iff] at h
    obtain ⟨_, -, _, -, h⟩ := h
    cases h
    exact ⟨rfl, rfl⟩

end Attribution
end SyntaxRecovery
