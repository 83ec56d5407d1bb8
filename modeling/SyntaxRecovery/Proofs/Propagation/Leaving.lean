import SyntaxRecovery.Proofs.Propagation.Idioms
import SyntaxRecovery.Proofs.Propagation.Safety

/-! What a walk does where it enters a node, and where it leaves one. It goes below the node if an
edit falls into it, or if it is outside of blocks. Behind the node it sets flags, on the node itself
and for the tokens that pending nodes claim, and then repairs the node. The edits stay what they
are, claimed or not. -/
namespace SyntaxRecovery

namespace Claims
variable {tree : Tree} {claims : Claims} {offsets : List Nat} {id : NodeId} {node : Node}

/-- The claims that `id` may make on tokens at the given offsets can flag `other`: it is the node
that claims, or it is around one that ends on the token. -/
def Implicates (tree : Tree) (offsets : List Nat) (id other : NodeId) : Prop :=
  ∃ node, tree.node? id = some node ∧
    (other = id ∧ (∃ offset ∈ offsets, offset + 1 = node.span.stop ∨
        node.span.start ≤ offset ∧ offset + 1 < node.span.stop) ∨
      other ∈ around tree id node.span.stop ∧ ∃ offset ∈ offsets, offset + 1 = node.span.stop)

/-- Tokens wait at the given offsets only. -/
def WaitsAt (claims : Claims) (offsets : List Nat) : Prop :=
  ∀ offset, claims.waiting offset ≠ [] → offset ∈ offsets

theorem waitsAt_waitingOf (offers : List Offer) (flagged : Finset NodeId) :
    WaitsAt ⟨waitingOf offers, flagged⟩ (offers.map (·.offset)) := by
  intro offset hne
  obtain ⟨kind, hkind⟩ := List.exists_mem_of_ne_nil _ hne
  obtain ⟨offer, hoffer, -⟩ := List.mem_map.mp hkind
  obtain ⟨hmem, hp⟩ := List.mem_filter.mp hoffer
  obtain ⟨-, rfl⟩ := of_decide_eq_true hp
  exact List.mem_map_of_mem hmem

theorem WaitsAt.atEnd (h : claims.WaitsAt offsets) (id : NodeId) :
    (claims.atEnd tree id).WaitsAt offsets := by
  cases hnode : tree.node? id with
  | none => simpa only [Claims.atEnd, hnode] using h
  | some node =>
    intro offset hne
    refine h offset fun hnil => hne ?_
    rw [waiting_atEnd hnode, hnil]
    simp

theorem WaitsAt.inside (h : claims.WaitsAt offsets) (id : NodeId) :
    (claims.inside tree id).WaitsAt offsets := by
  cases hnode : tree.node? id with
  | none => simpa only [Claims.inside, hnode] using h
  | some node =>
    intro offset hne
    refine h offset fun hnil => hne ?_
    rw [waiting_inside hnode, hnil]
    simp

/-- Where a node takes a token on its last byte, one waits there. -/
theorem WaitsAt.of_takenAtEnd (h : claims.WaitsAt offsets) (hne : claims.takenAtEnd node ≠ []) :
    ∃ offset ∈ offsets, offset + 1 = node.span.stop := by
  unfold takenAtEnd at hne
  split at hne
  · next expected last _ hlast =>
    refine ⟨last, h last fun hnil => hne ?_, hlast.symm⟩
    rw [hnil]
    rfl
  · exact absurd rfl hne

theorem WaitsAt.flagged_atEnd (h : claims.WaitsAt offsets) {other : NodeId}
    (ho : other ∈ (claims.atEnd tree id).flagged) :
    other ∈ claims.flagged ∨ Implicates tree offsets id other := by
  cases hnode : tree.node? id with
  | none => exact .inl (by simpa only [Claims.atEnd, hnode] using ho)
  | some node =>
    rw [Claims.flagged_atEnd hnode, Finset.mem_union] at ho
    refine ho.imp_right fun ho => ⟨node, hnode, ?_⟩
    by_cases hnil : claims.takenAtEnd node = []
    · simp [flagsAtEnd, hnil] at ho
    · obtain ⟨offset, hoffset, hend⟩ := h.of_takenAtEnd hnil
      simp only [flagsAtEnd, if_neg hnil, Finset.mem_union, Finset.mem_singleton] at ho
      rcases ho with rfl | ho
      · exact .inl ⟨rfl, offset, hoffset, .inl hend⟩
      · split at ho
        · cases ho
        · exact .inr ⟨ho, offset, hoffset, hend⟩

theorem WaitsAt.flagged_inside (h : claims.WaitsAt offsets) {other : NodeId}
    (ho : other ∈ (claims.inside tree id).flagged) :
    other ∈ claims.flagged ∨ Implicates tree offsets id other := by
  cases hnode : tree.node? id with
  | none => exact .inl (by simpa only [Claims.inside, hnode] using ho)
  | some node =>
    rw [Claims.flagged_inside hnode, Finset.mem_union] at ho
    refine ho.imp_right fun ho => ⟨node, hnode, ?_⟩
    split at ho
    · next hexists =>
      obtain ⟨offset, hlt, hstart, hne⟩ := hexists
      exact .inl ⟨Finset.mem_singleton.mp ho, offset, h offset hne, .inr ⟨hstart, by omega⟩⟩
    · cases ho

/-- Nodes that claim one after the other flag no more than each of them may. -/
theorem WaitsAt.foldl (step : Claims → NodeId → Claims) (run : List NodeId)
    (hstep : ∀ {claims : Claims} (id), claims.WaitsAt offsets → (step claims id).WaitsAt offsets)
    (hflags : ∀ {claims : Claims} {id other}, claims.WaitsAt offsets →
      other ∈ (step claims id).flagged → other ∈ claims.flagged ∨ Implicates tree offsets id other)
    (h : claims.WaitsAt offsets) : (run.foldl step claims).WaitsAt offsets ∧
      ∀ other ∈ (run.foldl step claims).flagged,
        other ∈ claims.flagged ∨ ∃ id ∈ run, Implicates tree offsets id other := by
  induction run generalizing claims with
  | nil => exact ⟨h, fun _ ho => .inl ho⟩
  | cons id run ih =>
    obtain ⟨hwaits, hflagged⟩ := ih (hstep id h)
    refine ⟨hwaits, fun other ho => ?_⟩
    rcases hflagged other ho with ho | ⟨last, hlast, himp⟩
    · exact (hflags h ho).imp_right fun himp => ⟨id, List.mem_cons_self, himp⟩
    · exact .inr ⟨last, List.mem_cons_of_mem id hlast, himp⟩

end Claims

theorem mem_offsets_ofLog {log : EditLog} {offset : Nat} :
    offset ∈ (Offer.ofLog log).map (·.offset) ↔ ∃ edit ∈ log.insertions, edit.anchor = offset := by
  simp only [Offer.ofLog, List.map_flatMap, List.mem_flatMap, List.mem_reverse, List.map_map,
    List.mem_map, Function.comp_apply]
  constructor
  · rintro ⟨edit, he, kind, -, ha⟩
    exact ⟨edit, he, ha⟩
  · rintro ⟨edit, he, ha⟩
    exact ⟨edit, he, edit.first, List.mem_cons_self, ha⟩

/-- Some edit falls into the span. -/
def EditLog.Touches (log : EditLog) (span : Span) : Prop :=
  (∃ edit ∈ log.insertions, span.Encloses edit.anchor edit.anchor) ∨
    (∃ edit ∈ log.removals, span.Encloses edit.start edit.last) ∨
      ∃ edit ∈ log.replacements, span.Encloses edit.start edit.last

instance (log : EditLog) (span : Span) : Decidable (log.Touches span) :=
  inferInstanceAs (Decidable (_ ∨ _ ∨ _))

/-- The first and the last byte of a stretch. -/
def Stretch.range (stretch : Stretch) : Nat × Nat := (stretch.start, stretch.last)

theorem mem_ranges_ofLog {log : EditLog} {range : Nat × Nat} :
    range ∈ (Stretch.ofLog log).map Stretch.range ↔
      (∃ edit ∈ log.removals, (edit.start, edit.last) = range) ∨
        ∃ edit ∈ log.replacements, (edit.start, edit.last) = range := by
  simp only [Stretch.ofLog, List.map_append, List.map_map, List.mem_append, List.mem_map]
  rfl

/-- An edit falls into the span if what a walk attributes for it does. -/
theorem EditLog.touches_iff_ofLog {log : EditLog} {span : Span} : log.Touches span ↔
    (∃ offset ∈ (Offer.ofLog log).map (·.offset), span.Encloses offset offset) ∨
      ∃ range ∈ (Stretch.ofLog log).map Stretch.range, span.Encloses range.1 range.2 := by
  refine or_congr ?_ ?_
  · constructor
    · rintro ⟨edit, he, hspan⟩
      exact ⟨_, mem_offsets_ofLog.mpr ⟨edit, he, rfl⟩, hspan⟩
    · rintro ⟨offset, ho, hspan⟩
      obtain ⟨edit, he, rfl⟩ := mem_offsets_ofLog.mp ho
      exact ⟨edit, he, hspan⟩
  · constructor
    · rintro (⟨edit, he, hspan⟩ | ⟨edit, he, hspan⟩)
      · exact ⟨_, mem_ranges_ofLog.mpr (.inl ⟨edit, he, rfl⟩), hspan⟩
      · exact ⟨_, mem_ranges_ofLog.mpr (.inr ⟨edit, he, rfl⟩), hspan⟩
    · rintro ⟨range, hr, hspan⟩
      rcases mem_ranges_ofLog.mp hr with ⟨edit, he, rfl⟩ | ⟨edit, he, rfl⟩
      · exact .inl ⟨edit, he, hspan⟩
      · exact .inr ⟨edit, he, hspan⟩

namespace Attribution
variable {tree : Tree} {id : NodeId} {node : Node} {state : Attribution} {log : EditLog}
  {diagnostics : List Diagnostic}

/-- The pending nodes may flag `other` for an insertion. -/
def Implicates (tree : Tree) (state : Attribution) (other : NodeId) : Prop :=
  ∃ id ∈ state.pending, Claims.Implicates tree (state.offers.map (·.offset)) id other

/-- Letting the pending nodes make their claims sets flags and leaves nobody waiting. -/
theorem flush_spec (hwf : tree.WellFormed) (h : PendingKnown tree state) : ∃ marked offers,
    state.flush tree = some (tree.markAll marked, { state with offers, pending := [] }) ∧
      offers.map (·.offset) = state.offers.map (·.offset) ∧
      ∀ other ∈ marked, other < tree.size ∧ Implicates tree state other := by
  have htracks : Claims.Tracks tree (state.offers.map (·.offset))
      ⟨Claims.waitingOf state.offers, ∅⟩ (tree, state.offers) := ⟨Tree.markAll_empty.symm, rfl, rfl⟩
  obtain ⟨tree', offers, hflush, htracks⟩ := htracks.flush hwf h
  obtain rfl := htracks.tree_eq
  have hwaits := Claims.waitsAt_waitingOf state.offers ∅
  obtain ⟨hwaits, hatEnd⟩ := Claims.WaitsAt.foldl (Claims.atEnd tree) state.pending.reverse
    (fun id h => h.atEnd id) (fun h ho => h.flagged_atEnd ho) hwaits
  obtain ⟨-, hinside⟩ := Claims.WaitsAt.foldl (Claims.inside tree) state.pending.reverse
    (fun id h => h.inside id) (fun h ho => h.flagged_inside ho) hwaits
  refine ⟨_, offers, hflush, htracks.offsets_eq, fun other ho => ?_⟩
  have himp : Implicates tree state other := by
    rcases hinside other ho with ho | ⟨id, hid, himp⟩
    · rcases hatEnd other ho with ho | ⟨id, hid, himp⟩
      · cases ho
      · exact ⟨id, List.mem_reverse.mp hid, himp⟩
    · exact ⟨id, List.mem_reverse.mp hid, himp⟩
  refine ⟨?_, himp⟩
  obtain ⟨id, hid, node, -, ⟨rfl, -⟩ | ⟨haround, -⟩⟩ := himp
  · exact h other hid
  · exact Claims.mem_around_lt hwf id node.span.stop other (List.mem_toFinset.mp haround)

/-- The edits are those of the log, claimed or not, and the pending nodes are nodes of the tree. -/
structure Serves (log : EditLog) (tree : Tree) (state : Attribution) : Prop where
  known : PendingKnown tree state
  idle : state.offers = [] → state.pending = []
  offsets_eq : state.offers.map (·.offset) = (Offer.ofLog log).map (·.offset)
  ranges_eq : state.stretches.map Stretch.range = (Stretch.ofLog log).map Stretch.range

/-- What leaving a node does before the node is repaired. -/
structure Leaves (tree : Tree) (id : NodeId) (node : Node) (state : Attribution)
    (marked : Finset NodeId) (state' : Attribution) : Prop where
  marked_lt : ∀ other ∈ marked, other < tree.size
  implicated : ∀ other ∈ marked, other = id ∨ Implicates tree state other
  offsets_eq : state'.offers.map (·.offset) = state.offers.map (·.offset)
  ranges_eq : state'.stretches.map Stretch.range = state.stretches.map Stretch.range
  depth_eq : state'.depth = state.depth - if node.shape = .block then 1 else 0
  lastStop_eq : state'.lastStop = some node.span.stop
  idle : state'.offers = [] → state'.pending = []
  /-- Inside of a block the node joins those that have waited if it ends where they do. Outside,
  only a block has anybody waiting before it. -/
  pending_cases : state'.pending = [] ∨
    state'.InBody ∧ (state'.pending = [id] ∨
      state'.pending = id :: state.pending ∧ state.lastStop = some node.span.stop) ∨
    ¬ state'.InBody ∧ node.shape ≠ .block ∧ state'.pending = state.pending

theorem flagIf_markAll (hid : id < tree.size) (marked : Finset NodeId) (reason : Bool) :
    (tree.markAll marked).flagIf id reason =
      some (tree.markAll (if reason then insert id marked else marked)) := by
  unfold Tree.flagIf
  split
  · exact Tree.flagRecovered_markAll hid
  · rfl

theorem map_range_claim (span : Span) (stretches : List Stretch) :
    (stretches.map (Stretch.claim span)).map Stretch.range = stretches.map Stretch.range := by
  rw [List.map_map]
  rfl

namespace Serves

theorem start : Serves log tree (.start log diagnostics) where
  known _ hid := nomatch hid
  idle _ := rfl
  offsets_eq := rfl
  ranges_eq := rfl

/-- The depth does not matter. -/
theorem withDepth (h : Serves log tree state) (depth : Nat) :
    Serves log tree { state with depth } :=
  ⟨h.known, h.idle, h.offsets_eq, h.ranges_eq⟩

theorem touchesEdits_iff (h : Serves log tree state) (span : Span) :
    state.TouchesEdits span ↔ log.Touches span := by
  rw [EditLog.touches_iff_ofLog, ← h.offsets_eq, ← h.ranges_eq]
  simp [TouchesEdits, Stretch.range]

end Serves

theorem enter_eq (hnode : tree.node? id = some node) (h : Serves log tree state) :
    state.enter tree id = some (decide (state.depth = 0 ∨ log.Touches node.span),
      { state with depth := state.depth + if node.shape = .block then 1 else 0 }) := by
  have hdescend : (¬ state.InBody ∨ state.TouchesEdits node.span) ↔
      (state.depth = 0 ∨ log.Touches node.span) := by
    rw [h.touchesEdits_iff, InBody, Nat.not_lt, Nat.le_zero]
  simp only [enter, hnode, Option.bind_eq_bind, Option.bind_some, hdescend]
  by_cases hblock : node.shape = .block
  · rw [if_pos hblock, if_pos hblock]
    rfl
  · rw [if_neg hblock, if_neg hblock]
    rfl

/-- A node that is put among those that wait joins them, or lets them go first. -/
theorem await_spec (id : NodeId) (node : Node) (hwf : tree.WellFormed) (h : PendingKnown tree state)
    (hidle : state.offers = [] → state.pending = []) : ∃ marked offers pending,
    state.await tree id node = some (tree.markAll marked, { state with offers, pending }) ∧
      offers.map (·.offset) = state.offers.map (·.offset) ∧ (offers = [] → pending = []) ∧
      (∀ other ∈ marked, other < tree.size ∧ Implicates tree state other) ∧
      (pending = [] ∨ pending = [id] ∨
        pending = id :: state.pending ∧ state.lastStop = some node.span.stop) := by
  rw [await_eq]
  cases ho : state.offers with
  | nil =>
    refine ⟨∅, [], [], ?_, rfl, fun _ => rfl, fun _ hother => (Finset.notMem_empty _ hother).elim,
      .inl rfl⟩
    rw [Tree.markAll_empty, if_pos List.isEmpty_nil, ← ho, ← hidle ho]
  | cons offer rest =>
    by_cases hlast : state.lastStop = some node.span.stop
    · refine ⟨∅, state.offers, id :: state.pending, ?_, by rw [ho], fun hnil => ?_,
        fun _ hother => (Finset.notMem_empty _ hother).elim, .inr (.inr ⟨rfl, hlast⟩)⟩
      · rw [Tree.markAll_empty, if_pos hlast]
        rfl
      · cases ho.symm.trans hnil
    · obtain ⟨marked, offers, hflush, hoffsets, hmarked⟩ := flush_spec hwf h
      refine ⟨marked, offers, [id], ?_, by rw [hoffsets, ho], fun hnil => ?_, hmarked,
        .inr (.inl rfl)⟩
      · rw [if_neg hlast, hflush]
        rfl
      · rw [hnil, ho] at hoffsets
        cases hoffsets

theorem leaveBody_spec (node : Node) (hwf : tree.WellFormed) (hid : id < tree.size)
    (h : PendingKnown tree state)
    (hidle : state.offers = [] → state.pending = []) : ∃ marked offers pending concerns stretches,
    state.leaveBody tree id node = some (tree.markAll marked,
        { state with offers, pending, concerns, stretches }) ∧
      offers.map (·.offset) = state.offers.map (·.offset) ∧
      stretches.map Stretch.range = state.stretches.map Stretch.range ∧
      (offers = [] → pending = []) ∧
      (∀ other ∈ marked, other < tree.size ∧ (other = id ∨ Implicates tree state other)) ∧
      (pending = [] ∨ pending = [id] ∨
        pending = id :: state.pending ∧ state.lastStop = some node.span.stop) := by
  have hknown : PendingKnown tree (state.settle node.span) := h
  obtain ⟨marked, offers, pending, hawait, hoffsets, hnil, hmarked, hpending⟩ :=
    await_spec id node hwf hknown hidle
  rw [leaveBody_eq, hawait, Option.bind_eq_bind, Option.bind_some, flagIf_markAll hid]
  refine ⟨_, offers, pending, _, _, rfl, hoffsets, map_range_claim _ _, hnil, fun other ho => ?_,
    hpending⟩
  split at ho
  · rcases Finset.mem_insert.mp ho with rfl | ho
    · exact ⟨hid, .inl rfl⟩
    · exact ⟨(hmarked other ho).1, .inr (hmarked other ho).2⟩
  · exact ⟨(hmarked other ho).1, .inr (hmarked other ho).2⟩

theorem leaveOutline_spec (node : Node) (state : Attribution) (hid : id < tree.size)
    (marked : Finset NodeId) :
    ∃ marked' concerns, state.leaveOutline (tree.markAll marked) id node =
        some (tree.markAll marked', { state with concerns }) ∧ marked' ⊆ insert id marked := by
  rw [leaveOutline_eq]
  split
  · rw [flagIf_markAll hid]
    refine ⟨_, _, rfl, ?_⟩
    split
    · exact Finset.Subset.refl _
    · exact Finset.subset_insert id marked
  · exact ⟨marked, _, rfl, Finset.subset_insert id marked⟩

/-- With the outermost block, nobody waits any longer. -/
theorem leaveBlock_spec (hwf : tree.WellFormed) (h : Serves log tree state)
    (hbody : ¬ 0 < state.depth - 1) : ∃ marked offers,
    state.leaveBlock tree =
        some (tree.markAll marked, { state with depth := state.depth - 1, offers, pending := [] }) ∧
      offers.map (·.offset) = state.offers.map (·.offset) ∧
      ∀ other ∈ marked, other < tree.size ∧ Implicates tree state other := by
  have hknown : PendingKnown tree { state with depth := state.depth - 1 } := h.known
  obtain ⟨marked, offers, hflush, hoffsets, hmarked⟩ := flush_spec hwf hknown
  refine ⟨marked, offers, ?_, hoffsets, hmarked⟩
  simp only [leaveBlock]
  rw [if_neg (show ¬ ({ state with depth := state.depth - 1 } : Attribution).InBody from hbody)]
  exact hflush

/-- What is done at a node before its repair. -/
theorem exists_leaves (hwf : tree.WellFormed) (hnode : tree.node? id = some node)
    (h : Serves log tree state) : ∃ marked state', Leaves tree id node state marked state' ∧
    ((if node.shape = .block then state.leaveBlock tree else some (tree, state)) >>= fun reached =>
      reached.2.leaveNode reached.1 id node) = some (tree.markAll marked, state') := by
  have hid := Tree.lt_size_of_node? hnode
  by_cases hbody : 0 < state.depth - if node.shape = .block then 1 else 0
  · -- Some block stays open, so that the node waits with the others.
    let inner : Attribution :=
      { state with depth := state.depth - if node.shape = .block then 1 else 0 }
    have hclosed : (if node.shape = .block then state.leaveBlock tree else some (tree, state)) =
        some (tree, inner) := by
      by_cases hblock : node.shape = .block
      · rw [if_pos hblock] at hbody
        simp only [inner, if_pos hblock, leaveBlock]
        exact if_pos hbody
      · simp only [inner, if_neg hblock, Nat.sub_zero]
    have hserves : Serves log tree inner := h.withDepth _
    have hinner : inner.InBody := hbody
    obtain ⟨marked, offers, pending, concerns, stretches, hleave, hoffsets, hranges, hnil, hmarked,
      hpending⟩ := leaveBody_spec node hwf hid hserves.known hserves.idle
    refine ⟨marked, { inner with
      offers, pending, concerns, stretches, lastStop := some node.span.stop },
      ⟨fun other ho => (hmarked other ho).1, fun other ho => (hmarked other ho).2, hoffsets,
        hranges, rfl, rfl, hnil, ?_⟩, ?_⟩
    · exact hpending.imp_right fun hp => .inl ⟨hinner, hp⟩
    · rw [hclosed, Option.bind_eq_bind, Option.bind_some, leaveNode_eq, if_pos hinner, hleave]
      rfl
  · have hclosed : ∃ marked offers pending,
        (if node.shape = .block then state.leaveBlock tree else some (tree, state)) =
          some (tree.markAll marked,
            { state with
              depth := state.depth - if node.shape = .block then 1 else 0, offers, pending }) ∧
        offers.map (·.offset) = state.offers.map (·.offset) ∧ (offers = [] → pending = []) ∧
        (∀ other ∈ marked, other < tree.size ∧ Implicates tree state other) ∧
        (pending = [] ∨ node.shape ≠ .block ∧ pending = state.pending) := by
      by_cases hblock : node.shape = .block
      · rw [if_pos hblock] at hbody
        obtain ⟨marked, offers, hflush, hoffsets, hmarked⟩ := leaveBlock_spec hwf h hbody
        refine ⟨marked, offers, [], ?_, hoffsets, fun _ => rfl, hmarked, .inl rfl⟩
        rw [if_pos hblock, if_pos hblock, hflush]
      · refine ⟨∅, state.offers, state.pending, ?_, rfl, h.idle,
          fun _ ho => (Finset.notMem_empty _ ho).elim, .inr ⟨hblock, rfl⟩⟩
        rw [if_neg hblock, if_neg hblock, Tree.markAll_empty, Nat.sub_zero]
    obtain ⟨marked, offers, pending, hclosed, hoffsets, hnil, hmarked, hpending⟩ := hclosed
    let outer : Attribution :=
      { state with depth := state.depth - if node.shape = .block then 1 else 0, offers, pending }
    have houter : ¬ outer.InBody := hbody
    obtain ⟨marked', concerns, hleave, hsub⟩ :=
      leaveOutline_spec node outer hid marked
    refine ⟨marked', { outer with concerns, lastStop := some node.span.stop },
      ⟨fun other ho => ?_, fun other ho => ?_, hoffsets, rfl, rfl, rfl, hnil, ?_⟩, ?_⟩
    · rcases Finset.mem_insert.mp (hsub ho) with rfl | ho
      · exact hid
      · exact (hmarked other ho).1
    · exact (Finset.mem_insert.mp (hsub ho)).imp_right fun ho => (hmarked other ho).2
    · exact hpending.imp_right fun hp => .inr ⟨hbody, hp⟩
    · rw [hclosed, Option.bind_eq_bind, Option.bind_some, leaveNode_eq, if_neg houter, hleave]
      rfl

namespace Leaves
variable {marked : Finset NodeId} {state' : Attribution}

theorem serves (h : Leaves tree id node state marked state') (hserves : Serves log tree state)
    (hid : id < tree.size) : Serves log tree state' where
  known other ho := by
    rcases h.pending_cases with hnil | ⟨-, hone | ⟨hmore, -⟩⟩ | ⟨-, -, hsame⟩
    · rw [hnil] at ho
      cases ho
    · rw [hone] at ho
      rw [List.mem_singleton.mp ho]
      exact hid
    · rw [hmore] at ho
      rcases List.mem_cons.mp ho with rfl | ho
      · exact hid
      · exact hserves.known other ho
    · exact hserves.known other (hsame ▸ ho)
  idle := h.idle
  offsets_eq := h.offsets_eq.trans hserves.offsets_eq
  ranges_eq := h.ranges_eq.trans hserves.ranges_eq

end Leaves

/-- Leaving a node sets flags and then repairs the node. -/
theorem leave_spec (hwf : tree.WellFormed) (hnode : tree.node? id = some node)
    (h : Serves log tree state) : ∃ marked state' tree', Leaves tree id node state marked state' ∧
    state.leave tree id = some (tree', state') ∧
    (tree.markAll marked).repair id node.shape state'.InBody = some tree' ∧
    Tree.ChangedBelow id tree tree' ∧ Serves log tree' state' := by
  have hid := Tree.lt_size_of_node? hnode
  obtain ⟨marked, state', hleaves, hsteps⟩ := exists_leaves hwf hnode h
  have hchanged : Tree.ChangedBelow id tree (tree.markAll marked) :=
    .of_skeleton hwf rfl Tree.skeleton_markAll
  obtain ⟨tree', hrepair, hchanged'⟩ := Tree.repair_total hchanged.wellFormed
    (Tree.size_markAll ▸ hid) node.shape (decide state'.InBody)
  have hserves := hleaves.serves h hid
  refine ⟨marked, state', tree', hleaves, ?_, hrepair, hchanged.trans hwf hchanged', ?_⟩
  · rw [leave_eq state hnode, ← bind_assoc, hsteps, Option.bind_eq_bind, Option.bind_some, hrepair]
    rfl
  · refine ⟨fun other ho => ?_, hserves.idle, hserves.offsets_eq, hserves.ranges_eq⟩
    have hsize := hchanged'.size_le
    rw [Tree.size_markAll] at hsize
    exact Nat.lt_of_lt_of_le (hserves.known other ho) hsize

/-- Where a node is left, the nodes stay what they are. -/
theorem keeps_of_leave {tree' : Tree} {state' : Attribution} (hwf : tree.WellFormed)
    (hnode : tree.node? id = some node) (h : Serves log tree state)
    (hleave : state.leave tree id = some (tree', state')) : tree.Keeps tree' := by
  obtain ⟨marked, _, _, -, hleave', hrepair, -⟩ := leave_spec hwf hnode h
  obtain ⟨rfl, rfl⟩ := Prod.mk.inj (Option.some.inj (hleave.symm.trans hleave'))
  obtain ⟨other, hother, -, hshape, -⟩ := Tree.node?_markAll_of_node? marked hnode
  rw [← hshape] at hrepair
  have hmarked : (tree.markAll marked).WellFormed := hwf.congr_skeleton Tree.skeleton_markAll
  exact (Tree.keeps_markAll tree marked).trans (Tree.repair_rewrites hmarked hother hrepair).keeps

end Attribution
end SyntaxRecovery
