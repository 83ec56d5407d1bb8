import SyntaxRecovery.Proofs.Propagation.Tally

/-! Putting off the claims on inserted tokens gives the same as making them at once. The nodes that
wait all end where the node left last does, and none is waiting outside of blocks. So a walk comes
to what its tally says, however the nodes have been kept waiting. -/
namespace SyntaxRecovery

namespace Attribution
variable {tree tree' : Tree} {log : EditLog} {tally : Tally} {state : Attribution} {id : NodeId}
  {node node' : Node} {diagnostics : List Diagnostic}

/-- The state of a walk over `tree`, with the tree `tree'` as it is at the time, comes to the tally
as soon as the pending nodes have made their claims. -/
structure Postponed (tree : Tree) (log : EditLog) (tally : Tally) (tree' : Tree)
    (state : Attribution) : Prop where
  tracks : ∃ before, Claims.Tracks tree ((Offer.ofLog log).map (·.offset)) before
    (tree', state.offers) ∧ tally.claims = state.pending.reverse.foldl (Claims.claim tree) before
  ends : ∀ id ∈ state.pending, ∃ node, tree.node? id = some node ∧
    state.lastStop = some node.span.stop
  outside : ¬ state.InBody → state.pending = []
  idle : state.offers = [] → state.pending = []
  concerns_eq : state.concerns = tally.concerns
  stretches_eq : state.stretches = tally.stretches

/-- The visitor leaves nodes as propagation does. Depth and span tell it whether to go below a
node. -/
structure Descends (log : EditLog) (descends : Nat → Span → Bool) (visitor : Visitor Attribution) :
    Prop where
  enter_eq : ∀ {tree : Tree} {id : NodeId} {node : Node} {state : Attribution},
    tree.node? id = some node → Serves log tree state → visitor.enter tree id state =
      some (descends state.depth node.span,
        { state with depth := state.depth + if node.shape = .block then 1 else 0 })
  leave_eq : visitor.leave = leave

theorem descends_visitor (log : EditLog) :
    Descends log (fun depth span => depth = 0 ∨ log.Touches span) visitor where
  enter_eq hnode h := enter_eq hnode h
  leave_eq := rfl

namespace Postponed

/-- A walk starts with nobody waiting. -/
theorem start (tree : Tree) (log : EditLog) (diagnostics : List Diagnostic) :
    Postponed tree log (.start log diagnostics) tree (.start log diagnostics) where
  tracks := ⟨.ofLog log, ⟨Tree.markAll_empty.symm, (Claims.waitingOf_ofLog log).symm, rfl⟩, rfl⟩
  ends _ hid := nomatch hid
  outside _ := rfl
  idle _ := rfl
  concerns_eq := rfl
  stretches_eq := rfl

/-- The tree as it is at the time differs from the tree only in flags. -/
theorem exists_markAll (h : Postponed tree log tally tree' state) :
    ∃ marked, tree' = tree.markAll marked := by
  obtain ⟨before, htracks, -⟩ := h.tracks
  exact ⟨before.flagged, htracks.tree_eq⟩

/-- Outside of blocks the flags of the tree are those of the claims. -/
theorem tree_eq_of_outside (h : Postponed tree log tally tree' state) (hbody : ¬ state.InBody) :
    tree' = tree.markAll tally.claims.flagged := by
  obtain ⟨before, htracks, hclaims⟩ := h.tracks
  rw [h.outside hbody] at hclaims
  rw [hclaims]
  exact htracks.tree_eq

/-- Which end the last node had matters only to those that wait. -/
theorem withLastStop (h : Postponed tree log tally tree' state) (hnil : state.pending = [])
    (lastStop : Option Nat) : Postponed tree log tally tree' { state with lastStop } where
  tracks := h.tracks
  ends other hother := by
    rw [show ({ state with lastStop } : Attribution).pending = [] from hnil] at hother
    cases hother
  outside := h.outside
  idle := h.idle
  concerns_eq := h.concerns_eq
  stretches_eq := h.stretches_eq

theorem withConcerns (h : Postponed tree log tally tree' state) (concerns : List Concern) :
    Postponed tree log { tally with concerns } tree' { state with concerns } :=
  ⟨h.tracks, h.ends, h.outside, h.idle, rfl, h.stretches_eq⟩

theorem withStretches (h : Postponed tree log tally tree' state) (stretches : List Stretch) :
    Postponed tree log { tally with stretches } tree' { state with stretches } :=
  ⟨h.tracks, h.ends, h.outside, h.idle, h.concerns_eq, rfl⟩

/-- When the pending nodes have made their claims, all are made, however many blocks are open. -/
theorem flush (h : Postponed tree log tally tree' state) (hwf : tree.WellFormed) (depth : Nat) :
    ∃ tree'' offers, ({ state with depth } : Attribution).flush tree' =
        some (tree'', { state with offers, depth, pending := [] }) ∧
      Claims.Tracks tree ((Offer.ofLog log).map (·.offset)) tally.claims (tree'', offers) := by
  obtain ⟨before, htracks, hclaims⟩ := h.tracks
  have hpending : ∀ id ∈ state.pending, id < tree.size := by
    intro id hid
    obtain ⟨node, hnode, -⟩ := h.ends id hid
    exact Tree.lt_size_of_node? hnode
  obtain ⟨tree'', offers, hflush, htracks⟩ :=
    @Claims.Tracks.flush tree _ before tree' { state with depth } htracks hwf hpending
  dsimp only at htracks
  have hrun : ∀ id ∈ state.pending.reverse, ∃ node, tree.node? id = some node ∧
      node.span.stop = state.lastStop.getD 0 := by
    intro id hid
    obtain ⟨node, hnode, hlast⟩ := h.ends id (List.mem_reverse.mp hid)
    exact ⟨node, hnode, by rw [hlast]; rfl⟩
  rw [Claims.foldl_inside_foldl_atEnd hrun, ← hclaims] at htracks
  exact ⟨tree'', offers, hflush, htracks⟩

/-- The state after the pending nodes have made their claims. -/
theorem of_tracks {offers : List Offer} (h : Postponed tree log tally tree' state) {tree'' : Tree}
    (htracks : Claims.Tracks tree ((Offer.ofLog log).map (·.offset)) tally.claims (tree'', offers))
    (depth : Nat) :
    Postponed tree log tally tree'' { state with offers, depth, pending := [] } where
  tracks := ⟨tally.claims, htracks, rfl⟩
  ends _ hid := nomatch hid
  outside _ := rfl
  idle _ := rfl
  concerns_eq := h.concerns_eq
  stretches_eq := h.stretches_eq

/-- Where no token is on offer, nobody has anything to claim. -/
theorem claim_of_nil (h : Postponed tree log tally tree' state) (ho : state.offers = [])
    (id : NodeId) : tally.claims.claim tree id = tally.claims := by
  obtain ⟨before, htracks, hclaims⟩ := h.tracks
  rw [h.idle ho] at hclaims
  rw [hclaims]
  refine Claims.claim_of_nothing (fun offset => ?_) id
  rw [List.reverse_nil, List.foldl_nil, htracks.waiting_eq, ho]
  rfl

/-- A node that is put among those that wait makes its claims after them. -/
theorem push (h : Postponed tree log tally tree' state) (hbody : state.InBody)
    (hne : state.offers ≠ []) (hnode : tree.node? id = some node)
    (hstop : state.pending = [] ∨ state.lastStop = some node.span.stop) :
    Postponed tree log { tally with claims := tally.claims.claim tree id } tree'
      { state with pending := id :: state.pending, lastStop := some node.span.stop } where
  tracks := by
    obtain ⟨before, htracks, hclaims⟩ := h.tracks
    refine ⟨before, htracks, ?_⟩
    rw [List.reverse_cons, List.foldl_append, ← hclaims]
    rfl
  ends := by
    refine List.forall_mem_cons.mpr ⟨⟨node, hnode, rfl⟩, fun other ho => ?_⟩
    obtain ⟨otherNode, hother, hlast⟩ := h.ends other ho
    rcases hstop with hnil | hstop
    · rw [hnil] at ho
      cases ho
    · exact ⟨otherNode, hother, hstop.symm.trans hlast⟩
  outside hnot := absurd hbody hnot
  idle ho := absurd ho hne
  concerns_eq := h.concerns_eq
  stretches_eq := h.stretches_eq

/-- A node is flagged at once. -/
theorem flagIf (h : Postponed tree log tally tree' state) (hid : id < tree.size) (reason : Bool) :
    ∃ tree'', tree'.flagIf id reason = some tree'' ∧
      Postponed tree log { tally with claims := tally.claims.flagIf id reason } tree'' state := by
  obtain ⟨before, htracks, hclaims⟩ := h.tracks
  obtain rfl : tree' = tree.markAll before.flagged := htracks.tree_eq
  refine ⟨_, flagIf_markAll hid before.flagged reason, ⟨before.flagIf id reason, ?_, ?_⟩, h.ends,
    h.outside, h.idle, h.concerns_eq, h.stretches_eq⟩
  · exact ⟨rfl, htracks.waiting_eq, htracks.offsets_eq⟩
  · rw [Claims.foldl_claim_flagIf, ← hclaims]

theorem await (h : Postponed tree log tally tree' state) (hwf : tree.WellFormed)
    (hbody : state.InBody) (hnode : tree.node? id = some node) (hspan : node'.span = node.span) :
    ∃ tree'' offers pending, state.await tree' id node' =
        some (tree'', { state with offers, pending }) ∧
      Postponed tree log { tally with claims := tally.claims.claim tree id } tree''
        { state with offers, pending, lastStop := some node.span.stop } := by
  rw [await_eq, hspan]
  by_cases ho : state.offers = []
  · refine ⟨tree', state.offers, state.pending, ?_, ?_⟩
    · have hnone : state.offers.isEmpty = true := by simpa using ho
      rw [if_pos hnone]
    · rw [h.claim_of_nil ho]
      exact h.withLastStop (h.idle ho) _
  · have hsome : state.offers.isEmpty = false := by simpa using ho
    simp only [hsome, Bool.false_eq_true, if_false]
    by_cases hlast : state.lastStop = some node.span.stop
    · refine ⟨tree', state.offers, id :: state.pending, ?_, h.push hbody ho hnode (.inr hlast)⟩
      rw [if_pos hlast]
      rfl
    · obtain ⟨tree'', offers, hflush, htracks⟩ := h.flush hwf state.depth
      have hoffers : offers ≠ [] := by
        obtain ⟨before, hbefore, -⟩ := h.tracks
        rintro rfl
        have hnil := hbefore.offsets_eq.trans htracks.offsets_eq.symm
        exact ho (List.map_eq_nil_iff.mp hnil)
      refine ⟨tree'', offers, [id], ?_,
        (h.of_tracks htracks state.depth).push hbody hoffers hnode (.inl rfl)⟩
      rw [if_neg hlast, hflush]
      rfl

theorem leaveBody (h : Postponed tree log tally tree' state) (hwf : tree.WellFormed)
    (hbody : state.InBody) (hnode : tree.node? id = some node) (hspan : node'.span = node.span) :
    ∃ tree'' state', state.leaveBody tree' id node' = some (tree'', state') ∧
      Postponed tree log (tally.leaveBody tree id node) tree''
        { state' with lastStop := some node.span.stop } ∧ state'.depth = state.depth := by
  let settled := tally.concerns.map (Concern.settle node.span)
  let claimed := tally.stretches.map (Stretch.claim node.span)
  obtain ⟨waited, offers, pending, hawait, hwaited⟩ :=
    (h.withConcerns settled).await hwf hbody hnode hspan
  obtain ⟨flagged, hflag, hflagged⟩ := hwaited.flagIf (Tree.lt_size_of_node? hnode)
    (tally.claimsStretch node)
  have hsettled : state.settle node'.span = { state with concerns := settled } := by
    rw [settle, hspan, h.concerns_eq]
  have hclaims (reached : Attribution) (hsame : reached.stretches = tally.stretches) :
      reached.claimsStretch node' = tally.claimsStretch node := by
    simp only [claimsStretch, Tally.claimsStretch, hspan, hsame]
  refine ⟨flagged, { state with concerns := settled, offers, pending, stretches := claimed }, ?_,
    hflagged.withStretches claimed, rfl⟩
  rw [leaveBody_eq, hsettled, hawait, hspan]
  simp only [Option.bind_eq_bind, Option.bind_some, h.stretches_eq]
  rw [hclaims _ rfl, hflag]
  rfl

theorem leaveOutline (h : Postponed tree log tally tree' state) (hid : id < tree.size)
    (hshape : node'.shape = node.shape) (hspan : node'.span = node.span) :
    ∃ tree'' concerns, state.leaveOutline tree' id node' =
        some (tree'', { state with concerns }) ∧
      Postponed tree log (tally.leaveOutline id node) tree'' { state with concerns } := by
  rw [leaveOutline_eq, hshape, hspan, Tally.leaveOutline, h.concerns_eq]
  split
  · obtain ⟨flagged, hflag, hflagged⟩ :=
      h.flagIf hid (tally.concerns.any fun concern => concern.Hits node.span)
    refine ⟨flagged, tally.concerns.map (Concern.settle node.span), ?_, hflagged.withConcerns _⟩
    rw [hflag, Option.bind_eq_bind, Option.bind_some, settle, h.concerns_eq]
  · exact ⟨tree', state.concerns, rfl, h⟩

theorem leaveNode (h : Postponed tree log tally tree' state) (hwf : tree.WellFormed)
    (hnode : tree.node? id = some node) (hshape : node'.shape = node.shape)
    (hspan : node'.span = node.span) :
    ∃ tree'' state', state.leaveNode tree' id node' = some (tree'', state') ∧
      Postponed tree log (if 0 < state.depth then tally.leaveBody tree id node
        else tally.leaveOutline id node) tree'' state' ∧ state'.depth = state.depth := by
  rw [leaveNode_eq, hspan]
  by_cases hbody : state.InBody
  · obtain ⟨tree'', reached, hleave, hend, hdepth⟩ := h.leaveBody hwf hbody hnode hspan
    have hpos : 0 < state.depth := hbody
    rw [if_pos hbody, hleave, if_pos hpos]
    exact ⟨tree'', _, rfl, hend, hdepth⟩
  · obtain ⟨tree'', concerns, hleave, hend⟩ :=
      h.leaveOutline (Tree.lt_size_of_node? hnode) hshape hspan
    have hzero : ¬ 0 < state.depth := hbody
    rw [if_neg hbody, hleave, if_neg hzero]
    exact ⟨tree'', _, rfl, hend.withLastStop (h.outside hbody) _, rfl⟩

/-- With the outermost block, nobody waits any longer. -/
theorem leaveBlock (h : Postponed tree log tally tree' state) (hwf : tree.WellFormed) :
    ∃ tree'' state', state.leaveBlock tree' = some (tree'', state') ∧
      Postponed tree log tally tree'' state' ∧ state'.depth = state.depth - 1 := by
  simp only [Attribution.leaveBlock]
  split
  · next hbody =>
    exact ⟨tree', _, rfl, ⟨h.tracks, h.ends, fun hnot => absurd hbody hnot, h.idle, h.concerns_eq,
      h.stretches_eq⟩, rfl⟩
  · obtain ⟨tree'', offers, hflush, htracks⟩ := h.flush hwf (state.depth - 1)
    exact ⟨tree'', _, hflush, h.of_tracks htracks (state.depth - 1), rfl⟩

/-- Opening a block lets those wait that have waited. -/
theorem openBlock (h : Postponed tree log tally tree' state) (node : Node) :
    Postponed tree log tally tree'
      { state with depth := state.depth + if node.shape = .block then 1 else 0 } := by
  split
  · exact ⟨h.tracks, h.ends, fun hnot => absurd (Nat.succ_pos state.depth) hnot, h.idle,
      h.concerns_eq, h.stretches_eq⟩
  · exact h

/-- What is on offer is what the log inserts. -/
theorem serves (h : Postponed tree log tally tree' state) (htally : tally.Serves log) :
    Serves log tree' state where
  known other ho := by
    obtain ⟨marked, rfl⟩ := h.exists_markAll
    obtain ⟨node, hnode, -⟩ := h.ends other ho
    rw [Tree.size_markAll]
    exact Tree.lt_size_of_node? hnode
  idle := h.idle
  offsets_eq := by
    obtain ⟨before, htracks, -⟩ := h.tracks
    exact htracks.offsets_eq
  ranges_eq := h.stretches_eq ▸ htally.ranges_eq

section Walk
variable (hwf : tree.WellFormed) (hnames : tree.NamesWritten)
include hwf hnames

/-- A node that is left adds to the tally what it comes to. -/
theorem leave (h : Postponed tree log tally tree' state) (hnode : tree.node? id = some node)
    {depth : Nat} (hdepth : state.depth = depth + if node.shape = .block then 1 else 0) :
    ∃ tree'' state', state.leave tree' id = some (tree'', state') ∧
      Postponed tree log (tally.leave tree id node depth) tree'' state' ∧ state'.depth = depth := by
  obtain ⟨marked, rfl⟩ := h.exists_markAll
  obtain ⟨node', hnode', -, hshape, hspan⟩ := Tree.node?_markAll_of_node? marked hnode
  have hblock :
      ∃ tree'' state',
        (if node'.shape = .block then state.leaveBlock (tree.markAll marked)
          else some (tree.markAll marked, state)) = some (tree'', state') ∧
        Postponed tree log tally tree'' state' ∧ state'.depth = depth := by
    rw [hshape]
    split
    · next hb =>
      obtain ⟨tree'', state', hleft, hclosed, hd⟩ := h.leaveBlock hwf
      rw [hdepth, if_pos hb, Nat.add_sub_cancel] at hd
      exact ⟨tree'', state', hleft, hclosed, hd⟩
    · next hb =>
      rw [if_neg hb, Nat.add_zero] at hdepth
      exact ⟨_, state, rfl, h, hdepth⟩
  obtain ⟨closed, reached, hclosed, hreached, rfl⟩ := hblock
  obtain ⟨left, state', hleft, hend, hd⟩ := hreached.leaveNode hwf hnode hshape hspan
  obtain ⟨marked, rfl⟩ := hend.exists_markAll
  have hrepair := Tree.repair_markAll_eq hwf hnames hnode marked state'.InBody
  obtain ⟨repaired, hflag, hflagged⟩ := hend.flagIf (Tree.lt_size_of_node? hnode)
    (!decide state'.InBody && decide (tree.IsTruncated id))
  have hbody : decide state'.InBody = decide (0 < reached.depth) := by
    rw [← hd]
    rfl
  refine ⟨repaired, state', ?_, ?_, hd⟩
  · rw [hflag] at hrepair
    rw [leave_eq state hnode', hclosed, Option.bind_eq_bind, Option.bind_some, hleft,
      Option.bind_some, hshape, hrepair]
    rfl
  · rw [hbody] at hflagged
    unfold Tally.leave
    by_cases hpos : 0 < reached.depth
    · rw [if_pos hpos]
      simpa only [decide_eq_true hpos, Bool.not_true, Bool.false_and, Claims.flagIf_false,
        if_pos hpos] using hflagged
    · rw [if_neg hpos]
      simpa only [decide_eq_false hpos, Bool.not_false, Bool.true_and, if_neg hpos] using hflagged

section Visit
variable {visitor : Visitor Attribution} {descends : Nat → Span → Bool} {levels depth : Nat}

omit hwf hnames in
/-- Nodes over which a walk has gone one after the other. -/
theorem foldlM_walkFrom {ids : List NodeId}
    (hwalk : ∀ id ∈ ids, ∀ {tally tree' state}, Postponed tree log tally tree' state →
      tally.Serves log → state.depth = depth → ∃ tree'' state',
        Tree.walkFrom visitor levels id (tree', state) = some (tree'', state') ∧
        Postponed tree log (tally.walkFrom tree descends levels depth id) tree'' state' ∧
        state'.depth = depth)
    (h : Postponed tree log tally tree' state) (htally : tally.Serves log)
    (hdepth : state.depth = depth) : ∃ tree'' state',
      ids.foldlM (fun reached id => Tree.walkFrom visitor levels id reached) (tree', state) =
        some (tree'', state') ∧
      Postponed tree log (ids.foldl (Tally.walkFrom tree descends levels depth) tally)
        tree'' state' ∧ state'.depth = depth := by
  induction ids generalizing tally tree' state with
  | nil => exact ⟨tree', state, rfl, h, hdepth⟩
  | cons id ids ih =>
    obtain ⟨hid, hids⟩ := List.forall_mem_cons.mp hwalk
    obtain ⟨middle, reached, hreached, hpostponed, hd⟩ := hid h htally hdepth
    obtain ⟨tree'', state', hlast, hpostponed, hd⟩ := ih hids hpostponed htally.walkFrom hd
    refine ⟨tree'', state', ?_, hpostponed, hd⟩
    rw [List.foldlM_cons, hreached]
    exact hlast

/-- A walk that puts claims off comes to what its tally says. -/
theorem walkFrom (hvisitor : Descends log descends visitor) (hid : id < tree.size)
    (hfits : tree.Fits levels id) (h : Postponed tree log tally tree' state)
    (htally : tally.Serves log) (hdepth : state.depth = depth) : ∃ tree'' state',
      Tree.walkFrom visitor levels id (tree', state) = some (tree'', state') ∧
      Postponed tree log (tally.walkFrom tree descends levels depth id) tree'' state' ∧
      state'.depth = depth := by
  induction levels generalizing id tally tree' state depth with
  | zero => exact hfits.elim
  | succ levels ih =>
    subst hdepth
    obtain ⟨node, hnode⟩ := Tree.node?_of_lt_size hid
    obtain ⟨marked, hmarked⟩ := h.exists_markAll
    obtain ⟨node', hnode', hkind, hshape, hspan⟩ := Tree.node?_markAll_of_node? marked hnode
    rw [← hmarked] at hnode'
    let opened : Attribution :=
      { state with depth := state.depth + if node.shape = .block then 1 else 0 }
    have hopened : Postponed tree log tally tree' opened := h.openBlock node
    have henter : visitor.enter tree' id state = some (descends state.depth node.span, opened) := by
      rw [hvisitor.enter_eq hnode' (h.serves htally), hshape, hspan]
    have hchildren : ∀ child ∈ node.kind.children, child < tree.size ∧ tree.Fits levels child := by
      intro child hc
      rw [← Tree.children_of_node? hnode] at hc
      exact ⟨hwf.child_lt_size hc, hfits child hc⟩
    rw [Tally.walkFrom_succ hnode]
    cases hdescends : descends state.depth node.span with
    | false =>
      rw [hdescends] at henter
      obtain ⟨tree'', state', hleft, hend⟩ := hopened.leave hwf hnames hnode rfl
      refine ⟨tree'', state', ?_, hend⟩
      simp only [Tree.walkFrom, henter, Option.bind_eq_bind, Option.bind_some, Bool.false_eq_true,
        if_false, hvisitor.leave_eq]
      exact hleft
    | true =>
      rw [hdescends] at henter
      obtain ⟨middle, reached, hwalked, hreached, hd⟩ := foldlM_walkFrom
        (fun child hc _ _ _ => ih (hchildren child hc).1 (hchildren child hc).2) hopened htally rfl
      obtain ⟨tree'', state', hleft, hend⟩ := hreached.leave hwf hnames hnode hd
      refine ⟨tree'', state', ?_, hend⟩
      rw [← hkind] at hwalked
      simp only [Tree.walkFrom, henter, Option.bind_eq_bind, Option.bind_some, if_true, hnode',
        hwalked, hvisitor.leave_eq]
      exact hleft

end Visit
end Walk
end Postponed
end Attribution
end SyntaxRecovery
