import SyntaxRecovery.Proofs.Propagation.Correlation
import SyntaxRecovery.Proofs.Propagation.Enclosure

/-! Inside of a block a walk does not go below a node that no edit falls into. The nodes there would
claim nothing, and the diagnostics that they settle are settled by the node itself. So the walk
comes to what it comes to if it goes everywhere. -/
namespace SyntaxRecovery

namespace Span
variable {outer middle inner : Span} {start last : Nat}

theorem Contains.trans (h : outer.Contains middle) (h' : middle.Contains inner) :
    outer.Contains inner := by
  unfold Contains at h h' ⊢
  omega

theorem Contains.encloses_of_lt (h : outer.Contains inner) (hlt : inner.start < inner.stop)
    (hinner : inner.Encloses start last) : outer.Encloses start last := by
  unfold Contains at h
  unfold Encloses at hinner ⊢
  omega

end Span

namespace Tree

/-- The node has bytes, and those of its children are among them. -/
def FilledAt (tree : Tree) (node : Node) : Prop :=
  node.span.start < node.span.stop ∧
    ∀ child ∈ node.kind.children, ∀ inner ∈ tree.node? child, node.span.Contains inner.span

instance (tree : Tree) (node : Node) : Decidable (tree.FilledAt node) :=
  inferInstanceAs (Decidable (_ ∧ _))

/-- No span is empty, and the spans of children lie inside those of their parents. -/
def Filled (tree : Tree) : Prop := ∀ id node, tree.node? id = some node → tree.FilledAt node

end Tree

namespace Concern
variable {concern : Concern} {outer inner : Span}

theorem Hits.of_contains (h : concern.Hits inner) (hcontains : outer.Contains inner)
    (hlt : inner.start < inner.stop) : concern.Hits outer := by
  obtain ⟨hsettled, hsyntactic, htouches⟩ := h
  refine ⟨hsettled, hsyntactic, ?_⟩
  unfold Diagnostic.Touches Span.last at htouches ⊢
  unfold Span.Contains at hcontains
  omega

/-- What a node around it settles, a node need not settle before. -/
theorem settle_settle (hcontains : outer.Contains inner) (hlt : inner.start < inner.stop)
    (concern : Concern) : (concern.settle inner).settle outer = concern.settle outer := by
  by_cases hinner : concern.Hits inner
  · have houter := hinner.of_contains hcontains hlt
    have hnot : ¬ (concern.settle inner).Hits outer := by
      rw [settle, if_pos hinner]
      rintro ⟨hsettled, -⟩
      cases hsettled
    rw [settle, if_neg hnot, settle, if_pos hinner, settle, if_pos houter]
    rfl
  · by_cases houter : concern.Hits outer
    · have hsame : concern.settle inner = concern := by
        rw [settle, if_neg hinner, houter.1]
        simp [houter.2.1, ← houter.1]
      rw [hsame]
    · have hnot : ¬ (concern.settle inner).Hits outer := by
        rw [settle, if_neg hinner]
        rintro ⟨hsettled, htouches⟩
        exact houter ⟨(Bool.or_eq_false_iff.mp hsettled).1, htouches⟩
      rw [settle, if_neg hnot, settle, if_neg hinner, settle, if_neg houter]
      simp

end Concern

namespace Tally
variable {tree : Tree} {log : EditLog} {tally other : Tally} {id : NodeId} {node : Node}
    {span : Span}
  {descends : Nat → Span → Bool} {levels depth : Nat}

/-- The tallies differ at most in diagnostics that a node with the span settles. -/
structure AgreesIn (span : Span) (tally other : Tally) : Prop where
  claims_eq : tally.claims = other.claims
  concerns_eq : tally.concerns.map (Concern.settle span) = other.concerns.map (Concern.settle span)
  stretches_eq : tally.stretches = other.stretches

namespace AgreesIn

theorem refl (span : Span) (tally : Tally) : AgreesIn span tally tally := ⟨rfl, rfl, rfl⟩

theorem trans {last : Tally} (h : AgreesIn span tally other) (h' : AgreesIn span other last) :
    AgreesIn span tally last :=
  ⟨h.claims_eq.trans h'.claims_eq, h.concerns_eq.trans h'.concerns_eq,
    h.stretches_eq.trans h'.stretches_eq⟩

/-- When the node is left the difference is gone. -/
theorem leave_eq (h : AgreesIn node.span tally other) (hpos : 0 < depth) :
    tally.leave tree id node depth = other.leave tree id node depth := by
  simp only [leave, if_pos hpos, leaveBody, claimsStretch, h.claims_eq, h.concerns_eq,
    h.stretches_eq]

end AgreesIn

section Untouched
variable (huntouched : ¬ log.Touches span)
include huntouched

/-- A node inside of an untouched span settles diagnostics, and claims nothing. -/
theorem agreesIn_leave (htally : tally.Serves log) (hnode : tree.node? id = some node)
    (hcontains : span.Contains node.span) (hlt : node.span.start < node.span.stop)
    (hpos : 0 < depth) : AgreesIn span (tally.leave tree id node depth) tally := by
  rw [EditLog.touches_iff_ofLog, not_or] at huntouched
  have hwaiting (offset : Nat) (hin : node.span.Encloses offset offset) :
      tally.claims.waiting offset = [] := by
    by_contra hne
    exact huntouched.1 ⟨offset, htally.waitsAt offset hne, hcontains.encloses_of_lt hlt hin⟩
  have hstretch : ∀ stretch ∈ tally.stretches,
      ¬ node.span.Encloses stretch.start stretch.last := by
    intro stretch hs hin
    have hrange : stretch.range ∈ (Stretch.ofLog log).map Stretch.range := by
      rw [← htally.ranges_eq]
      exact List.mem_map_of_mem hs
    exact huntouched.2 ⟨stretch.range, hrange, hcontains.encloses_of_lt hlt hin⟩
  have hclaim : tally.claims.claim tree id = tally.claims := by
    refine Claims.claim_of_nothing_in hnode fun offset hoffset => hwaiting offset ?_
    unfold Span.Encloses
    omega
  have hnone : tally.claimsStretch node = false := by
    simp only [claimsStretch, List.any_eq_false, decide_eq_true_eq]
    exact fun stretch hs hclaims => hstretch stretch hs hclaims.2
  have hsame : tally.stretches.map (Stretch.claim node.span) = tally.stretches := by
    have hkept : tally.stretches.map (Stretch.claim node.span) = tally.stretches.map (·) := by
      refine List.map_congr_left fun stretch hs => ?_
      simp [Stretch.claim, hstretch stretch hs]
    rw [hkept, List.map_id']
  rw [leave, if_pos hpos, leaveBody, hclaim, hnone, hsame]
  refine ⟨rfl, ?_, rfl⟩
  simp only [List.map_map]
  exact List.map_congr_left fun concern _ => Concern.settle_settle hcontains hlt concern

omit huntouched in
theorem agreesIn_foldl {ids : List NodeId} (htally : tally.Serves log)
    (hwalk : ∀ child ∈ ids, ∀ {below : Tally}, below.Serves log →
      AgreesIn span (below.walkFrom tree descends levels depth child) below) :
    Serves log (ids.foldl (walkFrom tree descends levels depth) tally) ∧
      AgreesIn span (ids.foldl (walkFrom tree descends levels depth) tally) tally := by
  induction ids generalizing tally with
  | nil => exact ⟨htally, .refl span tally⟩
  | cons child ids ih =>
    obtain ⟨hfirst, hrest⟩ := List.forall_mem_cons.mp hwalk
    obtain ⟨hserves, hagrees⟩ := ih htally.walkFrom hrest
    exact ⟨hserves, hagrees.trans (hfirst htally)⟩

/-- Whatever a walk does inside of an untouched span, the node that has the span comes to the
same. -/
theorem agreesIn_walkFrom (hfilled : tree.Filled) (htally : tally.Serves log) (hpos : 0 < depth)
    (hcontains : ∀ node ∈ tree.node? id, span.Contains node.span) :
    AgreesIn span (tally.walkFrom tree descends levels depth id) tally := by
  induction levels generalizing id tally depth with
  | zero => exact .refl span tally
  | succ levels ih =>
    cases hnode : tree.node? id with
    | none =>
      simp only [walkFrom, hnode]
      exact .refl span tally
    | some node =>
      have hin := hcontains node hnode
      have hchildren : ∀ child ∈ node.kind.children, ∀ inner ∈ tree.node? child,
          span.Contains inner.span := by
        intro child hc inner hinner
        exact hin.trans ((hfilled id node hnode).2 child hc inner hinner)
      have hleave {below : Tally} (hserves : below.Serves log) :
          AgreesIn span (below.leave tree id node depth) below :=
        agreesIn_leave huntouched hserves hnode hin (hfilled id node hnode).1 hpos
      rw [walkFrom_succ hnode]
      split
      · obtain ⟨hserves, hagrees⟩ := agreesIn_foldl htally fun child hc _ hbelow =>
          ih hbelow (Nat.lt_add_right _ hpos) (hchildren child hc)
        exact (hleave hserves).trans hagrees
      · exact hleave htally

end Untouched

/-- The nodes that a walk passes over add nothing. -/
theorem walkFrom_touches_eq (hfilled : tree.Filled) (htally : tally.Serves log) :
    tally.walkFrom tree (fun depth span => depth = 0 ∨ log.Touches span) levels depth id =
      tally.walkFrom tree (fun _ _ => true) levels depth id := by
  induction levels generalizing id tally depth with
  | zero => rfl
  | succ levels ih =>
    cases hnode : tree.node? id with
    | none => simp only [walkFrom, hnode]
    | some node =>
      have hchildren : ∀ ids : List NodeId, ∀ below : Tally, below.Serves log →
          ids.foldl (walkFrom tree (fun depth span => depth = 0 ∨ log.Touches span) levels
              (depth + if node.shape = .block then 1 else 0)) below =
            ids.foldl (walkFrom tree (fun _ _ => true) levels
              (depth + if node.shape = .block then 1 else 0)) below := by
        intro ids
        induction ids with
        | nil => exact fun _ _ => rfl
        | cons child ids ih' =>
          intro below hserves
          rw [List.foldl_cons, List.foldl_cons, ih hserves]
          exact ih' _ hserves.walkFrom
      rw [walkFrom_succ hnode, walkFrom_succ hnode, if_pos rfl]
      by_cases hdescend : depth = 0 ∨ log.Touches node.span
      · rw [if_pos (decide_eq_true hdescend), hchildren node.kind.children tally htally]
      · obtain ⟨hdepth, huntouched⟩ := not_or.mp hdescend
        have hpos := Nat.pos_of_ne_zero hdepth
        -- The children settle no more than the node does.
        have hbelow : AgreesIn node.span (node.kind.children.foldl
            (walkFrom tree (fun _ _ => true) levels
              (depth + if node.shape = .block then 1 else 0)) tally) tally :=
          (agreesIn_foldl htally fun child hc _ hserves => agreesIn_walkFrom huntouched hfilled
            hserves (Nat.lt_add_right _ hpos) ((hfilled id node hnode).2 child hc)).2
        rw [if_neg (by simpa using hdescend), hbelow.leave_eq hpos]

end Tally

/-- Propagation with a visitor of one's own. -/
def propagateWith (visitor : Visitor Attribution) (tree : Tree) (diagnostics : List Diagnostic)
    (log : EditLog) : Option (Tree × List Diagnostic) :=
  match tree.root with
  | none => some (tree, diagnostics)
  | some root => do
    let (tree, state) ← tree.walk visitor root (.start log diagnostics)
    return (tree, state.concerns.map (·.diagnostic))

namespace Attribution

/-- Goes below every node. -/
def exhaustiveVisitor : Visitor Attribution where
  enter tree id state := (enter tree id state).map fun entered => (true, entered.2)
  leave := leave

theorem descends_exhaustiveVisitor (log : EditLog) :
    Descends log (fun _ _ => true) exhaustiveVisitor where
  enter_eq hnode h := by
    simp only [exhaustiveVisitor, enter_eq hnode h, Option.map_some]
  leave_eq := rfl

end Attribution

/-- What a walk over the whole tree comes to. -/
def Tree.tally (tree : Tree) (descends : Nat → Span → Bool) (diagnostics : List Diagnostic)
    (log : EditLog) : Tally :=
  tree.root.toList.foldl (Tally.walkFrom tree descends (tree.size + 1) 0) (.start log diagnostics)

/-- When a walk is over, all flags of its tally are set and all its diagnostics are settled. -/
theorem propagateWith_eq_tally {tree : Tree} {log : EditLog} {visitor : Visitor Attribution}
    {descends : Nat → Span → Bool} (hwf : tree.WellFormed)
    (hroot : ∀ id ∈ tree.root, id < tree.size)
    (hnames : tree.NamesWritten) (hvisitor : Attribution.Descends log descends visitor)
    (diagnostics : List Diagnostic) : propagateWith visitor tree diagnostics log =
      some (tree.markAll (tree.tally descends diagnostics log).claims.flagged,
        (tree.tally descends diagnostics log).concerns.map (·.diagnostic)) := by
  have hstart :
      Attribution.Postponed tree log (.start log diagnostics) tree (.start log diagnostics) :=
    .start tree log diagnostics
  cases hr : tree.root with
  | none =>
    have htally : tree.tally descends diagnostics log = .start log diagnostics := by
      rw [Tree.tally, hr]
      rfl
    have hdiagnostics :
        (Tally.start log diagnostics).concerns.map (·.diagnostic) = diagnostics := by
      rw [Tally.start, List.map_map]
      exact List.map_id _
    have hflagged : (Tally.start log diagnostics).claims.flagged = ∅ := rfl
    rw [htally, hdiagnostics, hflagged, Tree.markAll_empty]
    simp only [propagateWith, hr]
  | some root =>
    have hfits : tree.Fits (tree.size + 1) root := hwf.fits (by omega)
    have hzero : (Attribution.start log diagnostics).depth = 0 := rfl
    obtain ⟨tree', state, hwalk, hend, hdepth⟩ :=
      hstart.walkFrom hwf hnames hvisitor (hroot root hr) hfits .start hzero
    have htally : tree.tally descends diagnostics log =
        (Tally.start log diagnostics).walkFrom tree descends (tree.size + 1) 0 root := by
      rw [Tree.tally, hr]
      rfl
    have houtside : ¬ state.InBody := by
      unfold Attribution.InBody
      rw [hdepth]
      exact Nat.lt_irrefl 0
    rw [htally, ← hend.tree_eq_of_outside houtside, ← hend.concerns_eq]
    simp only [propagateWith, hr, Tree.walk, hwalk]
    rfl

/-- Over a tree without missing names, in which each node has bytes and lies inside its parent,
propagation gives the tree and the diagnostics that it would give if it went below every node. -/
theorem propagate_eq_exhaustive {tree : Tree} (hwf : tree.WellFormed)
    (hroot : ∀ id ∈ tree.root, id < tree.size) (hnames : tree.NamesWritten) (hfilled : tree.Filled)
    (diagnostics : List Diagnostic) (log : EditLog) : ∃ tree' diagnostics',
      propagate tree diagnostics log = some (tree', diagnostics') ∧
      propagateWith Attribution.exhaustiveVisitor tree diagnostics log =
        some (tree', diagnostics') := by
  have hsame : tree.tally (fun depth span => depth = 0 ∨ log.Touches span) diagnostics log =
      tree.tally (fun _ _ => true) diagnostics log := by
    cases hr : tree.root with
    | none => simp only [Tree.tally, hr, Option.toList_none, List.foldl_nil]
    | some root =>
      simp only [Tree.tally, hr, Option.toList_some, List.foldl_cons, List.foldl_nil]
      exact Tally.walkFrom_touches_eq hfilled .start
  refine ⟨_, _, ?_,
    propagateWith_eq_tally hwf hroot hnames (Attribution.descends_exhaustiveVisitor log)
      diagnostics⟩
  rw [← hsame]
  exact propagateWith_eq_tally hwf hroot hnames (Attribution.descends_visitor log) diagnostics

/-- A semicolon after the statement of `brokenCall`. -/
def trailingSemicolon : EditLog where
  insertions := [⟨.semicolon, [], 4, none, false⟩]

/-- No edit falls into the statement, so that the walk does not get to the call in it. The statement
uses the problem in the call, and the block is flagged for the one behind. -/
theorem propagate_eq_exhaustive_brokenCall : brokenCall.WellFormed ∧ brokenCall.NamesWritten ∧
    brokenCall.Filled ∧ (brokenCall.departures trailingSemicolon).map (·.id) = [2, 3] ∧
    ∃ tree' diagnostics',
      propagate brokenCall callProblems trailingSemicolon = some (tree', diagnostics') ∧
      propagateWith Attribution.exhaustiveVisitor brokenCall callProblems trailingSemicolon =
        some (tree', diagnostics') ∧
      tree'.recoveredNodes = {3} ∧ diagnostics'.map (·.used) = [true, true, false] := by
  have hlink : Tree.link brokenCall.nodes brokenCall.root = .ok brokenCall := by decide +kernel
  have hnodes : ∀ node ∈ brokenCall.nodes, node.isMissingName = false ∧
      brokenCall.FilledAt node := by
    decide +kernel
  have hwf : brokenCall.WellFormed := Tree.wellFormed_of_link hlink
  have hnames : brokenCall.NamesWritten := fun _ _ h => (hnodes _ (Array.mem_of_getElem? h)).1
  have hfilled : brokenCall.Filled := fun _ _ h => (hnodes _ (Array.mem_of_getElem? h)).2
  have hdepartures : (brokenCall.departures trailingSemicolon).map (·.id) = [2, 3] := by
    decide +kernel
  obtain ⟨tree', diagnostics', hpropagate, hexhaustive⟩ := propagate_eq_exhaustive hwf
    (Tree.root_lt_size_of_link hlink) hnames hfilled callProblems trailingSemicolon
  have hrun : (propagate brokenCall callProblems trailingSemicolon).map
      (fun result => (result.1.recoveredNodes, result.2.map (·.used))) =
        some ({3}, [true, true, false]) := by decide +kernel
  rw [hpropagate] at hrun
  obtain ⟨hrecovered, hused⟩ := Prod.mk.inj (Option.some.inj hrun)
  exact ⟨hwf, hnames, hfilled, hdepartures, tree', diagnostics', hpropagate, hexhaustive,
    hrecovered, hused⟩

end SyntaxRecovery
