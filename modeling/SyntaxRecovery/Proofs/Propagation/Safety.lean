import SyntaxRecovery.Proofs.Propagation.Claims
import SyntaxRecovery.Proofs.Propagation.Repairs
import SyntaxRecovery.Proofs.Propagation.Steps
import SyntaxRecovery.Proofs.Tree.Linking

/-! Propagation over a tree that could be loaded comes to an end, and leaves a tree that can be
loaded again. The nodes that wait for inserted tokens stay known, although repairs change the tree
while they wait. -/
namespace SyntaxRecovery

namespace Attribution
variable {tree tree' : Tree} {id : NodeId} {node : Node} {state : Attribution}

/-- The pending nodes are nodes of the tree. -/
def PendingKnown (tree : Tree) (state : Attribution) : Prop := ∀ id ∈ state.pending, id < tree.size

/-- `step` gives an answer, and changes nothing but flags and the state. -/
def OnlyFlags (tree : Tree) (step : Option (Tree × Attribution)) : Prop :=
  ∃ tree' state', step = some (tree', state') ∧ tree'.root = tree.root ∧
    tree'.skeleton = tree.skeleton ∧ PendingKnown tree state'

namespace OnlyFlags

theorem pure (h : PendingKnown tree state) : OnlyFlags tree (some (tree, state)) :=
  ⟨tree, state, rfl, rfl, rfl, h⟩

/-- Two such steps, one after the other. -/
theorem bind {step : Option (Tree × Attribution)} (h : OnlyFlags tree step) (hwf : tree.WellFormed)
    {next : Tree × Attribution → Option (Tree × Attribution)}
    (hnext : ∀ {tree' state'}, tree'.WellFormed → tree'.skeleton = tree.skeleton →
      PendingKnown tree' state' → OnlyFlags tree' (next (tree', state'))) :
    OnlyFlags tree (step >>= next) := by
  obtain ⟨tree', state', rfl, hroot, hs, hpending⟩ := h
  have hsize := Tree.size_eq_of_skeleton hs
  obtain ⟨tree'', state'', hstep, hroot', hs', hpending'⟩ :=
    hnext (hwf.congr_skeleton hs) hs fun id hid => hsize ▸ hpending id hid
  exact ⟨tree'', state'', hstep, hroot'.trans hroot, hs'.trans hs,
    fun id hid => hsize ▸ hpending' id hid⟩

theorem flagIf (hid : id < tree.size) (reason : Bool) (h : PendingKnown tree state) :
    OnlyFlags tree (tree.flagIf id reason >>= fun tree => some (tree, state)) := by
  obtain ⟨node, hnode⟩ := Tree.node?_of_lt_size hid
  unfold Tree.flagIf
  split
  · refine ⟨tree.addFlags id .recovered, state, ?_, rfl, Tree.skeleton_addFlags _ _ _, h⟩
    simp [Tree.flagRecovered, hnode]
  · exact .pure h

end OnlyFlags

theorem flush_onlyFlags (hwf : tree.WellFormed) (h : PendingKnown tree state) :
    OnlyFlags tree (state.flush tree) := by
  have htracks : Claims.Tracks tree (state.offers.map (·.offset))
      ⟨Claims.waitingOf state.offers, ∅⟩ (tree, state.offers) := ⟨Tree.markAll_empty.symm, rfl, rfl⟩
  obtain ⟨tree', offers, hflush, htracks⟩ := htracks.flush hwf h
  have htree := htracks.tree_eq
  dsimp only at htree
  refine ⟨tree', _, hflush, ?_, ?_, fun id hid => nomatch hid⟩
  · rw [htree, Tree.root_markAll]
  · rw [htree, Tree.skeleton_markAll]

theorem leaveOutline_onlyFlags (hid : id < tree.size) (h : PendingKnown tree state) :
    OnlyFlags tree (state.leaveOutline tree id node) := by
  rw [leaveOutline_eq]
  split
  · exact OnlyFlags.flagIf hid _ h
  · exact .pure h

theorem await_onlyFlags (hwf : tree.WellFormed) (hid : id < tree.size)
    (h : PendingKnown tree state) : OnlyFlags tree (state.await tree id node) := by
  rw [await_eq]
  split
  · exact .pure h
  · have hflush : OnlyFlags tree (if state.lastStop = some node.span.stop then some (tree, state)
        else state.flush tree) := by
      split
      · exact .pure h
      · exact flush_onlyFlags hwf h
    refine hflush.bind hwf fun hwf' hs hpending => .pure ?_
    exact List.forall_mem_cons.mpr ⟨Tree.size_eq_of_skeleton hs ▸ hid, hpending⟩

theorem leaveBody_onlyFlags (hwf : tree.WellFormed) (hid : id < tree.size)
    (h : PendingKnown tree state) : OnlyFlags tree (state.leaveBody tree id node) := by
  rw [leaveBody_eq]
  have hawait : OnlyFlags tree ((state.settle node.span).await tree id node) :=
    await_onlyFlags hwf hid h
  refine hawait.bind hwf fun hwf' hs hpending => ?_
  exact OnlyFlags.flagIf (Tree.size_eq_of_skeleton hs ▸ hid) _ hpending

theorem leaveNode_onlyFlags (hwf : tree.WellFormed) (hid : id < tree.size)
    (h : PendingKnown tree state) : OnlyFlags tree (state.leaveNode tree id node) := by
  rw [leaveNode_eq]
  have hleave : OnlyFlags tree (if state.InBody then state.leaveBody tree id node
      else state.leaveOutline tree id node) := by
    split
    · exact leaveBody_onlyFlags hwf hid h
    · exact leaveOutline_onlyFlags hid h
  exact hleave.bind hwf fun _ _ hpending => .pure hpending

theorem leaveBlock_onlyFlags (hwf : tree.WellFormed) (h : PendingKnown tree state) :
    OnlyFlags tree (state.leaveBlock tree) := by
  simp only [leaveBlock]
  split
  · exact .pure h
  · exact flush_onlyFlags hwf h

theorem enter_total (hid : id < tree.size) (h : PendingKnown tree state) :
    ∃ descend state', state.enter tree id = some (descend, state') ∧ PendingKnown tree state' := by
  obtain ⟨node, hnode⟩ := Tree.node?_of_lt_size hid
  simp only [enter, hnode, Option.bind_eq_bind, Option.bind_some]
  refine ⟨_, _, rfl, ?_⟩
  split <;> exact h

/-- Leaving a node flags nodes anywhere, and then repairs what is below the node. -/
theorem leave_total (hwf : tree.WellFormed) (hid : id < tree.size) (h : PendingKnown tree state) :
    ∃ tree' state', state.leave tree id = some (tree', state') ∧
      Tree.ChangedBelow id tree tree' ∧ PendingKnown tree' state' := by
  obtain ⟨node, hnode⟩ := Tree.node?_of_lt_size hid
  have hblock : OnlyFlags tree (if node.shape = .block then state.leaveBlock tree
      else some (tree, state)) := by
    split
    · exact leaveBlock_onlyFlags hwf h
    · exact .pure h
  have hsteps : OnlyFlags tree ((if node.shape = .block then state.leaveBlock tree
      else some (tree, state)) >>= fun reached => reached.2.leaveNode reached.1 id node) :=
    hblock.bind hwf fun hwf' hs hpending =>
      leaveNode_onlyFlags hwf' (Tree.size_eq_of_skeleton hs ▸ hid) hpending
  obtain ⟨left, state', hleft, hroot, hs, hpending⟩ := hsteps
  have hchanged : Tree.ChangedBelow id tree left := .of_skeleton hwf hroot hs
  obtain ⟨repaired, hrepaired, hchanged'⟩ := Tree.repair_total hchanged.wellFormed
    (Nat.lt_of_lt_of_le hid hchanged.size_le) node.shape (decide state'.InBody)
  refine ⟨repaired, state', ?_, hchanged.trans hwf hchanged', fun id hid => ?_⟩
  · rw [leave_eq state hnode, ← bind_assoc, hleft, Option.bind_eq_bind, Option.bind_some, hrepaired]
    rfl
  · exact Nat.lt_of_lt_of_le (hpending id hid)
      (Nat.le_trans hchanged.size_le hchanged'.size_le)

end Attribution

/-- Propagation over a tree that could be loaded comes to an end without meeting an unknown node,
and leaves a tree that loading its nodes and its root gives again. -/
theorem propagate_link {nodes : Array Node} {root : Option NodeId} {tree : Tree}
    (hlink : Tree.link nodes root = .ok tree) (diagnostics : List Diagnostic) (log : EditLog) :
    ∃ tree' diagnostics', propagate tree diagnostics log = some (tree', diagnostics') ∧
      Tree.link tree'.nodes tree'.root = .ok tree' := by
  have hwf := Tree.wellFormed_of_link hlink
  have hknown := Tree.root_lt_size_of_link hlink
  cases hroot : tree.root with
  | none =>
    refine ⟨tree, diagnostics, ?_, hwf.link_eq hknown⟩
    simp only [propagate, hroot]
  | some id =>
    have hid := hknown id hroot
    have hfits : tree.Fits (tree.size + 1) id := hwf.fits (by omega)
    have hstart : Attribution.PendingKnown tree (.start log diagnostics) := fun _ hid => nomatch hid
    obtain ⟨tree', state', hwalk, hchanged, -⟩ := Tree.walkFrom_total Attribution.visitor
      Attribution.PendingKnown (fun _ hid h => Attribution.enter_total hid h)
      (fun hwf hid h => Attribution.leave_total hwf hid h) hwf hid hfits hstart
    refine ⟨tree', state'.concerns.map (·.diagnostic), ?_, ?_⟩
    · simp only [propagate, hroot, Tree.walk, hwalk]
      rfl
    · refine hchanged.wellFormed.link_eq fun other ho => ?_
      rw [hchanged.root_eq] at ho
      exact Nat.lt_of_lt_of_le (hknown other ho) hchanged.size_le

/-- A block with the statement `x = <missing>;`, flagged as recovered. -/
def danglingAssignment : Tree where
  nodes := #[⟨.simpleName "x", ⟨1, 2⟩, .parsed, some 2⟩,
    ⟨.simpleName "$missing$", ⟨4, 4⟩, .parsed, some 2⟩,
    ⟨⟨.assignment, (0, .assign, 1, ())⟩, ⟨1, 4⟩, .parsed, some 3⟩,
    ⟨⟨.expressionStatement, (2, ())⟩, ⟨1, 5⟩, .recovered, some 4⟩,
    ⟨⟨.block, ([3], ())⟩, ⟨0, 6⟩, .parsed, none⟩]
  root := some 4

theorem propagate_danglingAssignment :
    Tree.link danglingAssignment.nodes danglingAssignment.root = .ok danglingAssignment ∧
      ∃ tree diagnostics, propagate danglingAssignment []
        { insertions := [⟨.semicolon, [], 4, none, false⟩] } = some (tree, diagnostics) ∧
          Tree.link tree.nodes tree.root = .ok tree := by
  have hlink : Tree.link danglingAssignment.nodes danglingAssignment.root =
      .ok danglingAssignment := by decide +kernel
  exact ⟨hlink, propagate_link hlink [] _⟩

end SyntaxRecovery
