import SyntaxRecovery.Proofs.Propagation.Departures

/-! Inserted tokens that no node tells apart. A node looks at a token only where it ends, and there
only for whether the token is among its terminators. So propagation comes to the same when tokens
that wait at one place stand in for each other, as long as the nodes that end there take the one for
what they take the other. -/
namespace SyntaxRecovery

section Pointwise
variable {α β : Type} {R : α → β → Prop} {l : List α} {l' : List β}

theorem forall₂_nil_iff (h : List.Forall₂ R l l') : l' = [] ↔ l = [] := by
  cases h <;> simp

theorem forall_mem_iff_of_forall₂ {p : α → Prop} {q : β → Prop} (h : List.Forall₂ R l l')
    (hR : ∀ a b, R a b → (q b ↔ p a)) : (∀ b ∈ l', q b) ↔ ∀ a ∈ l, p a := by
  induction h with
  | nil => simp
  | cons hab _ ih => simp only [List.forall_mem_cons, hR _ _ hab, ih]

theorem forall₂_throughFirst {p : α → Bool} {q : β → Bool} (h : List.Forall₂ R l l')
    (hR : ∀ a b, R a b → q b = p a) : List.Forall₂ R (throughFirst p l) (throughFirst q l') := by
  induction h with
  | nil => exact .nil
  | @cons a b l l' hab _ ih =>
    rw [throughFirst, throughFirst, hR a b hab]
    split
    · exact .cons hab .nil
    · exact .cons hab ih

end Pointwise

/-- Nodes that take the terminators `expected` and end at `stop` are among those meant by
`ends stop expected`. Such nodes take the one kind for what they take the other. -/
def SameAt (ends : Nat → List TokenKind → Prop) (offset : Nat) (kind other : TokenKind) : Prop :=
  ∀ expected, ends (offset + 1) expected → (other ∈ expected ↔ kind ∈ expected)

/-- The node, if it has terminators, is among those meant by `ends`. -/
def Tree.EndsIn (tree : Tree) (ends : Nat → List TokenKind → Prop) (id : NodeId) : Prop :=
  ∀ node ∈ tree.node? id, ∀ expected ∈ node.shape.terminators?, ends node.span.stop expected

section EndsIn
variable {ends : Nat → List TokenKind → Prop} {tree tree' : Tree} {id : NodeId}

theorem Tree.EndsIn.keeps (h : tree.EndsIn ends id) (hid : id < tree.size)
    (hkeeps : tree.Keeps tree') : tree'.EndsIn ends id := by
  intro other hother expected he
  obtain ⟨node, hnode⟩ := Tree.node?_of_lt_size hid
  obtain ⟨last, hlast, hres⟩ := hkeeps.resembles id node hnode
  obtain rfl := Option.some.inj (hlast.symm.trans hother)
  rw [hres.shape_eq] at he
  rw [hres.span_eq]
  exact h node hnode expected he

theorem Tree.EndsIn.congr (h : tree.EndsIn ends id) (hskeleton : tree'.skeleton = tree.skeleton) :
    tree'.EndsIn ends id := by
  intro other hother expected he
  obtain ⟨node, hnode, hkind, hspan⟩ :=
    Tree.node?_congr_skeleton (congrFun hskeleton.symm id) hother
  have hshape : node.shape = other.shape := congrArg NodeKind.shape hkind
  rw [← hshape] at he
  rw [← hspan]
  exact h node hnode expected he

end EndsIn

namespace Claims
variable {ends : Nat → List TokenKind → Prop} {tree : Tree} {claims others : Claims} {id : NodeId}
  {node : Node}

/-- The same nodes are flagged, and tokens wait at the same places, one for one, that the nodes do
not tell apart. -/
structure Alike (ends : Nat → List TokenKind → Prop) (claims others : Claims) : Prop where
  waiting : ∀ offset,
    List.Forall₂ (SameAt ends offset) (claims.waiting offset) (others.waiting offset)
  flagged_eq : others.flagged = claims.flagged

namespace Alike

theorem takenAtEnd (h : Alike ends claims others) (hends : tree.EndsIn ends id)
    (hnode : tree.node? id = some node) : List.Forall₂
      (fun kind other => other ∈ node.shape.terminators?.getD [] ↔
        kind ∈ node.shape.terminators?.getD [])
      (claims.takenAtEnd node) (others.takenAtEnd node) := by
  unfold Claims.takenAtEnd
  cases he : node.shape.terminators? with
  | none => exact .nil
  | some expected =>
    have hexpected := hends node hnode expected he
    cases hs : node.span.stop with
    | zero => exact .nil
    | succ last =>
      rw [hs] at hexpected
      have hwaiting := (h.waiting last).imp fun kind other hsame => hsame expected hexpected
      exact forall₂_throughFirst hwaiting fun kind other hsame => decide_eq_decide.mpr hsame

theorem atEnd (h : Alike ends claims others) (hends : tree.EndsIn ends id) :
    Alike ends (claims.atEnd tree id) (others.atEnd tree id) := by
  cases hnode : tree.node? id with
  | none => simpa only [Claims.atEnd, hnode] using h
  | some node =>
    have htaken := h.takenAtEnd hends hnode
    constructor
    · intro offset
      rw [waiting_atEnd hnode, waiting_atEnd hnode, ← htaken.length_eq]
      split
      · exact List.forall₂_drop _ (h.waiting offset)
      · exact h.waiting offset
    · have hnil := forall₂_nil_iff htaken
      have hall := forall_mem_iff_of_forall₂ htaken fun _ _ hsame => hsame
      rw [Claims.flagged_atEnd hnode, Claims.flagged_atEnd hnode, h.flagged_eq]
      simp only [flagsAtEnd, hnil, hall]

theorem inside (h : Alike ends claims others) (id : NodeId) :
    Alike ends (claims.inside tree id) (others.inside tree id) := by
  cases hnode : tree.node? id with
  | none => simpa only [Claims.inside, hnode] using h
  | some node =>
    constructor
    · intro offset
      rw [waiting_inside hnode, waiting_inside hnode]
      split
      · exact .nil
      · exact h.waiting offset
    · have hnil (offset : Nat) : others.waiting offset ≠ [] ↔ claims.waiting offset ≠ [] :=
        not_congr (forall₂_nil_iff (h.waiting offset))
      rw [Claims.flagged_inside hnode, Claims.flagged_inside hnode, h.flagged_eq]
      simp only [hnil]

/-- Nodes that make their claims one after the other. -/
theorem foldl (step : Claims → NodeId → Claims) (run : List NodeId)
    (hstep : ∀ id ∈ run, ∀ {claims others : Claims}, Alike ends claims others →
      Alike ends (step claims id) (step others id))
    (h : Alike ends claims others) :
    Alike ends (run.foldl step claims) (run.foldl step others) := by
  induction run generalizing claims others with
  | nil => exact h
  | cons id run ih =>
    obtain ⟨hfirst, hrest⟩ := List.forall_mem_cons.mp hstep
    exact ih hrest (hfirst h)

end Alike
end Claims

namespace Attribution
variable {ends : Nat → List TokenKind → Prop} {tree tree' : Tree} {id : NodeId} {node : Node}
  {state : Attribution} {others : List Offer}

/-- In the place of the offers of `state` others are made, which the nodes that wait do not tell
apart from them. -/
structure Alike (ends : Nat → List TokenKind → Prop) (tree : Tree) (state : Attribution)
    (others : List Offer) : Prop where
  waiting : ∀ offset, List.Forall₂ (SameAt ends offset) (Claims.waitingOf state.offers offset)
    (Claims.waitingOf others offset)
  empty_iff : others = [] ↔ state.offers = []
  known : PendingKnown tree state
  endsIn : ∀ id ∈ state.pending, tree.EndsIn ends id

/-- What is neither on offer nor waits does not matter. -/
theorem Alike.congr {state' : Attribution} (h : Alike ends tree state others)
    (hoffers : state'.offers = state.offers) (hpending : state'.pending = state.pending)
    (hskeleton : tree'.skeleton = tree.skeleton) : Alike ends tree' state' others where
  waiting := hoffers ▸ h.waiting
  empty_iff := hoffers ▸ h.empty_iff
  known := by
    intro id hid
    rw [hpending] at hid
    exact Tree.size_eq_of_skeleton hskeleton ▸ h.known id hid
  endsIn := by
    intro id hid
    rw [hpending] at hid
    exact (h.endsIn id hid).congr hskeleton

/-- The steps give an answer, the same but for the offers, and change nothing but flags and the
state. -/
def Agree (ends : Nat → List TokenKind → Prop) (tree : Tree)
    (step step' : Option (Tree × Attribution)) : Prop :=
  ∃ tree' state offers, step = some (tree', state) ∧ step' = some (tree', { state with offers }) ∧
    tree'.skeleton = tree.skeleton ∧ Alike ends tree' state offers

namespace Agree

theorem pure (h : Alike ends tree state others) :
    Agree ends tree (some (tree, state)) (some (tree, { state with offers := others })) :=
  ⟨tree, state, others, rfl, rfl, rfl, h⟩

/-- Two such steps, one after the other. -/
theorem bind {step step' : Option (Tree × Attribution)} (h : Agree ends tree step step')
    (hwf : tree.WellFormed) {next next' : Tree × Attribution → Option (Tree × Attribution)}
    (hnext : ∀ {tree' state offers}, tree'.WellFormed → tree'.skeleton = tree.skeleton →
      Alike ends tree' state offers →
      Agree ends tree' (next (tree', state)) (next' (tree', { state with offers }))) :
    Agree ends tree (step >>= next) (step' >>= next') := by
  obtain ⟨tree', state, offers, rfl, rfl, hskeleton, halike⟩ := h
  obtain ⟨tree'', state', offers', hstep, hstep', hskeleton', halike'⟩ :=
    hnext (hwf.congr_skeleton hskeleton) hskeleton halike
  exact ⟨tree'', state', offers', hstep, hstep', hskeleton'.trans hskeleton, halike'⟩

theorem flagIf (hid : id < tree.size) (reason : Bool) (h : Alike ends tree state others) :
    Agree ends tree (tree.flagIf id reason >>= fun tree => some (tree, state))
      (tree.flagIf id reason >>= fun tree => some (tree, { state with offers := others })) := by
  have hflag := flagIf_markAll hid ∅ reason
  rw [Tree.markAll_empty] at hflag
  rw [hflag]
  exact ⟨_, state, others, rfl, rfl, Tree.skeleton_markAll, h.congr rfl rfl Tree.skeleton_markAll⟩

end Agree

theorem flush_agree (hwf : tree.WellFormed) (h : Alike ends tree state others) :
    Agree ends tree (state.flush tree) (flush tree { state with offers := others }) := by
  have htracks (offers : List Offer) : Claims.Tracks tree (offers.map (·.offset))
      ⟨Claims.waitingOf offers, ∅⟩ (tree, offers) := ⟨Tree.markAll_empty.symm, rfl, rfl⟩
  obtain ⟨_, offers, hflush, hend⟩ := (htracks state.offers).flush hwf h.known
  have hknown : PendingKnown tree { state with offers := others } := h.known
  obtain ⟨_, offers', hflush', hend'⟩ := Claims.Tracks.flush (htracks others) hwf hknown
  have halike : Claims.Alike ends ⟨Claims.waitingOf state.offers, ∅⟩ ⟨Claims.waitingOf others, ∅⟩ :=
    ⟨h.waiting, rfl⟩
  have hclaims := (halike.foldl (Claims.atEnd tree) state.pending.reverse fun id hid _ _ halike =>
    halike.atEnd (h.endsIn id (List.mem_reverse.mp hid))).foldl (Claims.inside tree)
      state.pending.reverse fun id _ _ _ halike => halike.inside id
  obtain rfl := hend.tree_eq
  have htree := hend'.tree_eq
  dsimp only at htree
  rw [hclaims.flagged_eq] at htree
  subst htree
  refine ⟨_, _, offers', hflush, hflush', Tree.skeleton_markAll, ?_, ?_, nofun, nofun⟩
  · have hwaiting := hclaims.waiting
    rw [hend.waiting_eq, hend'.waiting_eq] at hwaiting
    exact hwaiting
  · have hempty {offers offers' : List Offer}
        (heq : offers'.map (·.offset) = offers.map (·.offset)) : offers' = [] ↔ offers = [] := by
      rw [← List.map_eq_nil_iff, heq, List.map_eq_nil_iff]
    have hempty' := hempty hend'.offsets_eq
    exact hempty'.trans (h.empty_iff.trans (hempty hend.offsets_eq).symm)

theorem await_agree (hwf : tree.WellFormed) (hid : id < tree.size) (hends : tree.EndsIn ends id)
    (h : Alike ends tree state others) : Agree ends tree (state.await tree id node)
      (await tree id node { state with offers := others }) := by
  have hempty : others.isEmpty = state.offers.isEmpty := by
    rw [Bool.eq_iff_iff, List.isEmpty_iff, List.isEmpty_iff, h.empty_iff]
  rw [await_eq, await_eq, hempty]
  split
  · exact .pure h
  · have hflush : Agree ends tree (if state.lastStop = some node.span.stop then some (tree, state)
        else state.flush tree) (if state.lastStop = some node.span.stop
          then some (tree, { state with offers := others })
          else flush tree { state with offers := others }) := by
      split
      · exact .pure h
      · exact flush_agree hwf h
    refine hflush.bind hwf fun {tree' reached offers} hwf' hskeleton halike => ?_
    have hpushed : Alike ends tree' { reached with pending := id :: reached.pending } offers := by
      refine ⟨halike.waiting, halike.empty_iff, List.forall_mem_cons.mpr ⟨?_, halike.known⟩,
        List.forall_mem_cons.mpr ⟨hends.congr hskeleton, halike.endsIn⟩⟩
      exact Tree.size_eq_of_skeleton hskeleton ▸ hid
    exact .pure hpushed

theorem leaveBody_agree (hwf : tree.WellFormed) (hid : id < tree.size) (hends : tree.EndsIn ends id)
    (h : Alike ends tree state others) : Agree ends tree (state.leaveBody tree id node)
      (leaveBody tree id node { state with offers := others }) := by
  rw [leaveBody_eq, leaveBody_eq]
  have hsettled : Alike ends tree (state.settle node.span) others := h.congr rfl rfl rfl
  refine (await_agree hwf hid hends hsettled).bind hwf fun {tree' reached offers} _ hskeleton
    halike => ?_
  have hclaimed : Alike ends tree' { reached with
      stretches := reached.stretches.map (Stretch.claim node.span) } offers :=
        halike.congr rfl rfl rfl
  exact .flagIf (Tree.size_eq_of_skeleton hskeleton ▸ hid) (reached.claimsStretch node) hclaimed

theorem leaveOutline_agree (hid : id < tree.size) (h : Alike ends tree state others) :
    Agree ends tree (state.leaveOutline tree id node)
      (leaveOutline tree id node { state with offers := others }) := by
  rw [leaveOutline_eq, leaveOutline_eq]
  split
  · have hsettled : Alike ends tree (state.settle node.span) others := h.congr rfl rfl rfl
    exact .flagIf hid _ hsettled
  · exact .pure h

theorem leaveNode_agree (hwf : tree.WellFormed) (hid : id < tree.size)
    (hends : state.InBody → tree.EndsIn ends id) (h : Alike ends tree state others) :
    Agree ends tree (state.leaveNode tree id node)
      (leaveNode tree id node { state with offers := others }) := by
  rw [leaveNode_eq, leaveNode_eq]
  have hleave : Agree ends tree (if state.InBody then state.leaveBody tree id node
      else state.leaveOutline tree id node) (if state.InBody
        then leaveBody tree id node { state with offers := others }
        else leaveOutline tree id node { state with offers := others }) := by
    split
    · next hbody => exact leaveBody_agree hwf hid (hends hbody) h
    · exact leaveOutline_agree hid h
  refine hleave.bind hwf fun {tree' reached offers} _ _ halike => ?_
  have hstop : Alike ends tree' { reached with lastStop := some node.span.stop } offers :=
    halike.congr rfl rfl rfl
  exact .pure hstop

theorem leaveBlock_agree (hwf : tree.WellFormed) (h : Alike ends tree state others) :
    Agree ends tree (state.leaveBlock tree) (leaveBlock tree { state with offers := others }) := by
  have hclosed : Alike ends tree { state with depth := state.depth - 1 } others :=
    h.congr rfl rfl rfl
  by_cases hbody : ({ state with depth := state.depth - 1 } : Attribution).InBody
  · have hstep (offers : List Offer) : leaveBlock tree { state with offers } =
        some (tree, { state with offers, depth := state.depth - 1 }) := if_pos hbody
    rw [hstep others, hstep state.offers]
    exact .pure hclosed
  · have hstep (offers : List Offer) : leaveBlock tree { state with offers } =
        flush tree { state with offers, depth := state.depth - 1 } := if_neg hbody
    rw [hstep others, hstep state.offers]
    exact flush_agree hwf hclosed

/-- Leaving a node that lies in a block lets it join those that wait, so it is to be among those
meant. -/
theorem leave_agree {log : EditLog} (hwf : tree.WellFormed) (hnode : tree.node? id = some node)
    (hserves : Serves log tree state) (h : Alike ends tree state others)
    (hends : 0 < state.depth - (if node.shape = .block then 1 else 0) → tree.EndsIn ends id) :
    ∃ tree' state' offers, state.leave tree id = some (tree', state') ∧
      leave tree id { state with offers := others } = some (tree', { state' with offers }) ∧
      Alike ends tree' state' offers := by
  have hid := Tree.lt_size_of_node? hnode
  have hblock : Agree ends tree
      (if node.shape = .block then state.leaveBlock tree else some (tree, state))
      (if node.shape = .block then leaveBlock tree { state with offers := others }
        else some (tree, { state with offers := others })) := by
    split
    · exact leaveBlock_agree hwf h
    · exact .pure h
  obtain ⟨closed, reached, offers, hclosed, hclosed', hskeleton, halike⟩ := hblock
  have hdepth : reached.depth = state.depth - if node.shape = .block then 1 else 0 := by
    by_cases hshape : node.shape = .block
    · rw [if_pos hshape] at hclosed ⊢
      exact (of_leaveBlock hclosed).2
    · rw [if_neg hshape] at hclosed ⊢
      cases hclosed
      rfl
  have hends' : reached.InBody → closed.EndsIn ends id := by
    intro hbody
    exact (hends (hdepth ▸ hbody)).congr hskeleton
  have hclosedWf := hwf.congr_skeleton hskeleton
  obtain ⟨left, state', offers', hleft, hleft', hskeleton', halike'⟩ :=
    leaveNode_agree hclosedWf (Tree.size_eq_of_skeleton hskeleton ▸ hid) hends' halike
  have hsame := hskeleton'.trans hskeleton
  obtain ⟨tree', hrepair, hchanged⟩ := Tree.repair_total (hwf.congr_skeleton hsame)
    (Tree.size_eq_of_skeleton hsame ▸ hid) node.shape (decide state'.InBody)
  have hleave : state.leave tree id = some (tree', state') := by
    rw [leave_eq _ hnode, hclosed, Option.bind_eq_bind, Option.bind_some, hleft, Option.bind_some,
      hrepair]
    rfl
  have hkeeps := keeps_of_leave hwf hnode hserves hleave
  have hpending {other : NodeId} (ho : other ∈ state'.pending) : other < tree.size :=
    Tree.size_eq_of_skeleton hsame ▸ halike'.known other ho
  refine ⟨tree', state', offers', hleave, ?_, halike'.waiting, halike'.empty_iff, ?_, ?_⟩
  · rw [leave_eq _ hnode, hclosed', Option.bind_eq_bind, Option.bind_some, hleft', Option.bind_some]
    have hrepair' : left.repair id node.shape
        (decide ({ state' with offers := offers' } : Attribution).InBody) = some tree' := hrepair
    rw [hrepair']
    rfl
  · intro other ho
    exact Nat.lt_of_lt_of_le (hpending ho) hkeeps.size_le
  · intro other ho
    exact ((halike'.endsIn other ho).congr hsame.symm).keeps (hpending ho) hkeeps

end Attribution

/-- Some node that the walk leaves in a block ends at `stop` and has the terminators `expected`. -/
def Tree.Expects (tree : Tree) (log : EditLog) (stop : Nat) (expected : List TokenKind) : Prop :=
  ∃ departure ∈ tree.departures log, 0 < departure.depth ∧ ∃ node ∈ tree.node? departure.id,
    node.span.stop = stop ∧ node.shape.terminators? = some expected

section Propagation
variable {tree : Tree} {log other : EditLog}

theorem Claims.waiting_ofLog_eq_nil_iff {offset : Nat} :
    (Claims.ofLog log).waiting offset = [] ↔ ∀ edit ∈ log.insertions, edit.anchor ≠ offset := by
  simp only [Claims.ofLog, List.flatMap_eq_nil_iff, List.mem_filter, List.mem_reverse,
    decide_eq_true_eq]
  constructor
  · intro h edit he ha
    exact absurd (h edit ⟨he, ha⟩) (List.cons_ne_nil _ _)
  · intro h edit he
    exact absurd he.2 (h edit he.1)

/-- A walk is the same for logs with edits at the same places. -/
theorem Tree.departures_congr (h : ∀ span, other.Touches span ↔ log.Touches span) :
    tree.departures other = tree.departures log := by
  have hfrom (levels : Nat) :
      tree.departuresFrom other levels = tree.departuresFrom log levels := by
    induction levels with
    | zero => rfl
    | succ levels ih =>
      funext depth id
      simp only [Tree.departuresFrom, ih, h]
  simp only [Tree.departures, hfrom]

/-- The logs put tokens at the same places, one for one, that the nodes meant do not tell apart.
Their stretches are the same. -/
structure EditLog.Exchanges (ends : Nat → List TokenKind → Prop) (log other : EditLog) : Prop where
  waiting : ∀ offset, List.Forall₂ (SameAt ends offset) ((Claims.ofLog log).waiting offset)
    ((Claims.ofLog other).waiting offset)
  stretches_eq : Stretch.ofLog other = Stretch.ofLog log

namespace EditLog.Exchanges
variable {ends : Nat → List TokenKind → Prop}

theorem exists_anchor_iff (h : log.Exchanges ends other) (offset : Nat) :
    (∃ edit ∈ other.insertions, edit.anchor = offset) ↔
      ∃ edit ∈ log.insertions, edit.anchor = offset := by
  have hnil := forall₂_nil_iff (h.waiting offset)
  rw [Claims.waiting_ofLog_eq_nil_iff, Claims.waiting_ofLog_eq_nil_iff] at hnil
  have hnot := not_congr hnil
  push Not at hnot
  exact hnot

theorem touches_iff (h : log.Exchanges ends other) (span : Span) :
    other.Touches span ↔ log.Touches span := by
  simp only [EditLog.touches_iff_ofLog, mem_offsets_ofLog, h.exists_anchor_iff, h.stretches_eq]

theorem offers_eq_nil_iff (h : log.Exchanges ends other) :
    Offer.ofLog other = [] ↔ Offer.ofLog log = [] := by
  have hnil (log : EditLog) : Offer.ofLog log = [] ↔
      ∀ offset, ¬ ∃ edit ∈ log.insertions, edit.anchor = offset := by
    rw [← List.map_eq_nil_iff (f := fun offer : Offer => offer.offset),
      List.eq_nil_iff_forall_not_mem]
    simp only [mem_offsets_ofLog]
  rw [hnil other, hnil log]
  simp only [h.exists_anchor_iff]

end EditLog.Exchanges

namespace Attribution
variable {left : List Departure} {departure : Departure} {tree' tree'' : Tree}
  {state state' : Attribution} {diagnostics : List Diagnostic}

/-- The run for the log `other`, next to the one for `log`, when the nodes of the list have been
left. -/
structure Exchanged (log other : EditLog) (diagnostics : List Diagnostic) (tree : Tree)
    (left : List Departure) (tree' : Tree) (state : Attribution) : Prop where
  keeps : tree.Keeps tree'
  run : ∃ others, left.foldlM depart (tree, .start other diagnostics) =
      some (tree', { state with offers := others }) ∧ Alike (tree.Expects log) tree' state others

namespace Exchanged

theorem start (h : log.Exchanges (tree.Expects log) other) :
    Exchanged log other diagnostics tree [] tree (.start log diagnostics) where
  keeps := .refl tree
  run := by
    refine ⟨Offer.ofLog other, ?_, ?_, h.offers_eq_nil_iff, nofun, nofun⟩
    · rw [List.foldlM_nil]
      simp only [Attribution.start, h.stretches_eq]
      rfl
    · intro offset
      have hwaiting := h.waiting offset
      rw [← Claims.waitingOf_ofLog, ← Claims.waitingOf_ofLog] at hwaiting
      exact hwaiting

theorem depart (h : Exchanged log other diagnostics tree left tree' state) (hwf : tree.WellFormed)
    (hroot : ∀ id ∈ tree.root, id < tree.size) (hmem : departure ∈ tree.departures log)
    (hreached : Reached log tree left tree' state)
    (hdepart : Attribution.depart (tree', state) departure = some (tree'', state')) :
    Exchanged log other diagnostics tree (left ++ [departure]) tree'' state' := by
  have hid := Tree.lt_size_of_mem_departures hwf hroot hmem
  obtain ⟨node, hnode⟩ := Tree.node?_of_lt_size hid
  obtain ⟨node', hnode', -⟩ := h.keeps.resembles departure.id node hnode
  obtain ⟨others, hrun, halike⟩ := h.run
  have hends : 0 < departure.depth → tree'.EndsIn (tree.Expects log) departure.id := by
    intro hdepth
    have hstart : tree.EndsIn (tree.Expects log) departure.id := fun node hnode expected he =>
      ⟨departure, hmem, hdepth, node, hnode, rfl, he⟩
    exact hstart.keeps hid h.keeps
  have hentered : Alike (tree.Expects log) tree' { state with
      depth := departure.depth + if node'.shape = .block then 1 else 0 } others :=
    halike.congr rfl rfl rfl
  have hbody : 0 < (departure.depth + if node'.shape = .block then 1 else 0) -
      (if node'.shape = .block then 1 else 0) → tree'.EndsIn (tree.Expects log) departure.id := by
    rw [Nat.add_sub_cancel]
    exact hends
  obtain ⟨last, state₁, offers, hleave, hleave', halike'⟩ :=
    leave_agree hreached.wellFormed hnode' (hreached.serves.withDepth _) hentered hbody
  have hkeeps := h.keeps.trans (hreached.keeps hdepart)
  rw [depart_eq hnode', hleave] at hdepart
  obtain ⟨rfl, rfl⟩ := Prod.mk.inj (Option.some.inj hdepart)
  refine ⟨hkeeps, offers, ?_, halike'⟩
  rw [List.foldlM_append, hrun, Option.bind_eq_bind, Option.bind_some, List.foldlM_cons,
    depart_eq hnode']
  exact congrArg (· >>= fun reached => some reached) hleave'

end Exchanged
end Attribution

/-- Logs that exchange tokens which no node that the walk leaves tells apart come to the same. -/
theorem propagate_exchange (hwf : tree.WellFormed) (hroot : ∀ id ∈ tree.root, id < tree.size)
    (h : log.Exchanges (tree.Expects log) other) (diagnostics : List Diagnostic) :
    propagate tree diagnostics other = propagate tree diagnostics log := by
  obtain ⟨tree', state, hrun, -, hend⟩ := Attribution.foldlM_depart_induction
    (motive := Attribution.Exchanged log other diagnostics tree) hwf hroot (.start h)
    fun hsplit hreached h hdepart => h.depart hwf hroot
      (hsplit ▸ List.mem_append_right _ List.mem_cons_self) hreached hdepart
  obtain ⟨others, hrun', -⟩ := hend.run
  rw [propagate_eq_foldlM hwf hroot, propagate_eq_foldlM hwf hroot,
    Tree.departures_congr h.touches_iff, hrun, hrun']
  rfl

end Propagation
end SyntaxRecovery
