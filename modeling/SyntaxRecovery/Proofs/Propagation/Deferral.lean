import SyntaxRecovery.Proofs.Propagation.Postponement

/-! Insertions without other edits and without diagnostics. The flags that propagation sets are
those of the claims that its nodes make, each as soon as it is left. -/
namespace SyntaxRecovery

/-- Without removals and replacements, only an insertion can fall into a span. -/
theorem EditLog.touches_iff_of_stretches {log : EditLog} (h : Stretch.ofLog log = [])
    (span : Span) : log.Touches span ↔
      (log.insertions.any fun edit => span.Encloses edit.anchor edit.anchor) = true := by
  simp only [Stretch.ofLog, List.append_eq_nil_iff, List.map_eq_nil_iff] at h
  simp [Touches, h.1, h.2]

namespace Tally
variable {tree : Tree} {log : EditLog} {claims : Claims} {id : NodeId} {node : Node}
    {levels depth : Nat}

theorem leave_of_plain (hplain : tree.AnnotationsPlain) :
    (Tally.mk claims [] []).leave tree id node depth =
      ⟨if 0 < depth then claims.claim tree id else claims, [], []⟩ := by
  unfold leave
  by_cases hpos : 0 < depth
  · rw [if_pos hpos, if_pos hpos]
    rfl
  · have houtline : (Tally.mk claims [] []).leaveOutline id node = ⟨claims, [], []⟩ := by
      unfold leaveOutline
      split <;> rfl
    rw [if_neg hpos, if_neg hpos, houtline, decide_eq_false (hplain.not_isTruncated id)]
    rfl

/-- Nodes inside of blocks claim tokens, and nothing else is done. -/
theorem walkFrom_of_plain (hplain : tree.AnnotationsPlain) (hlog : Stretch.ofLog log = []) :
    (Tally.mk claims [] []).walkFrom tree (fun depth span => depth = 0 ∨ log.Touches span)
      levels depth id =
        ⟨(tree.leftInBody log levels (decide (0 < depth)) id).foldl (Claims.claim tree) claims,
          [], []⟩ := by
  induction levels generalizing id claims depth with
  | zero => rfl
  | succ levels ih =>
    cases hnode : tree.node? id with
    | none => simp only [walkFrom, Tree.leftInBody, hnode, List.foldl_nil]
    | some node =>
      have hinner : decide (0 < depth + if node.shape = .block then 1 else 0) =
          (decide (0 < depth) || node.shape == .block) := by
        by_cases hblock : node.shape = .block <;> simp [hblock]
      have hchildren (ids : List NodeId) (claims : Claims) :
          ids.foldl (walkFrom tree (fun depth span => depth = 0 ∨ log.Touches span) levels
              (depth + if node.shape = .block then 1 else 0)) ⟨claims, [], []⟩ =
            ⟨(ids.flatMap (tree.leftInBody log levels
              (decide (0 < depth) || node.shape == .block))).foldl (Claims.claim tree) claims,
                [], []⟩ := by
        induction ids generalizing claims with
        | nil => rfl
        | cons child ids ih' =>
          rw [List.foldl_cons, ih, hinner, ih', List.flatMap_cons, List.foldl_append]
      have hskip : (depth = 0 ∨ log.Touches node.span) ↔ (decide (0 < depth) &&
          !(log.insertions.any fun edit => node.span.Encloses edit.anchor edit.anchor)) =
            false := by
        rw [EditLog.touches_iff_of_stretches hlog, ← Bool.not_eq_true, Bool.and_eq_true,
          decide_eq_true_eq, not_and_or, Nat.not_lt, Nat.le_zero, Bool.not_eq_true',
          Bool.not_eq_false]
      have hlast (claims : Claims) : (if decide (0 < depth) = true then [id] else []).foldl
          (Claims.claim tree) claims = if 0 < depth then claims.claim tree id else claims := by
        by_cases h : 0 < depth <;> simp [h]
      rw [walkFrom_succ hnode]
      simp only [Tree.leftInBody, hnode, List.foldl_append, hlast, hskip]
      cases decide (0 < depth) && !(log.insertions.any fun edit =>
          node.span.Encloses edit.anchor edit.anchor) with
      | true => exact leave_of_plain hplain
      | false =>
        simp only [decide_true, if_true, Bool.false_eq_true, if_false, hchildren]
        exact leave_of_plain hplain

end Tally

namespace Attribution
variable {tree tree' : Tree} {log : EditLog} {claims : Claims} {state : Attribution} {id : NodeId}

/-- The state of a walk over `tree`, with the tree `tree'` as it is at the time, in which the claims
are made as soon as the pending nodes have made theirs. -/
structure Deferred (tree : Tree) (log : EditLog) (claims : Claims) (tree' : Tree)
    (state : Attribution) : Prop extends Postponed tree log ⟨claims, [], []⟩ tree' state where
  serves : Tally.Serves log ⟨claims, [], []⟩

namespace Deferred

/-- A walk starts with nobody waiting. -/
theorem start (hreplacements : log.replacements = []) (hremovals : log.removals = []) :
    Deferred tree log (.ofLog log) tree (.start log []) := by
  have htally : Tally.start log [] = ⟨.ofLog log, [], []⟩ := by
    simp [Tally.start, Stretch.ofLog, hreplacements, hremovals]
  exact ⟨htally ▸ Postponed.start tree log [], htally ▸ Tally.Serves.start⟩

/-- A walk that puts claims off comes to what making them at once gives. -/
theorem walkFrom {levels depth : Nat} (hwf : tree.WellFormed) (hnames : tree.NamesWritten)
    (hplain : tree.AnnotationsPlain) (hid : id < tree.size) (hfits : tree.Fits levels id)
    (h : Deferred tree log claims tree' state) (hdepth : state.depth = depth) : ∃ tree'' state',
      Tree.walkFrom visitor levels id (tree', state) = some (tree'', state') ∧
      Deferred tree log ((tree.leftInBody log levels (decide (0 < depth)) id).foldl
        (Claims.claim tree) claims) tree'' state' ∧ state'.depth = depth := by
  have hlog : Stretch.ofLog log = [] := List.map_eq_nil_iff.mp h.serves.ranges_eq.symm
  obtain ⟨tree'', state', hwalk, hend, hd⟩ :=
    h.toPostponed.walkFrom hwf hnames (descends_visitor log) hid hfits h.serves hdepth
  have hserves : Tally.Serves log ((Tally.mk claims [] []).walkFrom tree
      (fun depth span => depth = 0 ∨ log.Touches span) levels depth id) := h.serves.walkFrom
  rw [Tally.walkFrom_of_plain hplain hlog] at hend hserves
  exact ⟨tree'', state', hwalk, ⟨hend, hserves⟩, hd⟩

end Deferred
end Attribution

/-- Propagation over a tree without missing names and annotations with values, for a log of
insertions only, comes to an end. It flags just the nodes that are flagged when each node makes its
claims as soon as it is left. -/
theorem propagate_insertions {tree : Tree} {log : EditLog} (hwf : tree.WellFormed)
    (hroot : ∀ id ∈ tree.root, id < tree.size) (hnames : tree.NamesWritten)
    (hplain : tree.AnnotationsPlain) (hreplacements : log.replacements = [])
    (hremovals : log.removals = []) : ∃ tree', propagate tree [] log = some (tree', []) ∧
      tree' = tree.markAll (tree.insertionClaims log).flagged ∧
      tree'.recoveredNodes = tree.recoveredNodes ∪ (tree.insertionClaims log).flagged := by
  cases hstart : tree.root with
  | none =>
    refine ⟨tree, ?_, ?_, ?_⟩
    · simp only [propagate, hstart]
    · simp [Tree.insertionClaims, hstart, Claims.ofLog]
    · simp [Tree.insertionClaims, hstart, Claims.ofLog]
  | some root =>
    have hid := hroot root hstart
    have hfits : tree.Fits (tree.size + 1) root := hwf.fits (by omega)
    have hdeferred : Attribution.Deferred tree log (.ofLog log) tree (.start log []) :=
      .start hreplacements hremovals
    have hdepth : (Attribution.start log []).depth = 0 := rfl
    have hreference : tree.insertionClaims log = (tree.leftInBody log (tree.size + 1)
        (decide (0 < 0)) root).foldl (Claims.claim tree) (.ofLog log) := by
      rw [Tree.insertionClaims, hstart]
      rfl
    obtain ⟨tree', state, hwalk, hend, hdepth⟩ :=
      Attribution.Deferred.walkFrom hwf hnames hplain hid hfits hdeferred hdepth
    rw [← hreference] at hend
    have houtside : ¬ state.InBody := by
      unfold Attribution.InBody
      rw [hdepth]
      exact Nat.lt_irrefl 0
    have htree := hend.tree_eq_of_outside houtside
    refine ⟨tree', ?_, htree, ?_⟩
    · have hconcerns : state.concerns.map (·.diagnostic) = [] := by rw [hend.concerns_eq]; rfl
      simp only [propagate, hstart, Tree.walk, hwalk, Option.bind_eq_bind, Option.bind_some,
        hconcerns]
      rfl
    · rw [htree]
      refine Tree.recoveredNodes_markAll ?_
      rw [hreference]
      exact Claims.flagged_foldl_claim_lt hwf fun _ hid => absurd hid (Finset.notMem_empty _)

/-- A block with the statement `f(`. -/
def brokenCall : Tree where
  nodes := #[⟨.simpleName "f", ⟨2, 3⟩, .parsed, some 1⟩,
    ⟨⟨.methodInvocation, (none, 0, [], ())⟩, ⟨2, 4⟩, .parsed, some 2⟩,
    ⟨⟨.expressionStatement, (1, ())⟩, ⟨2, 4⟩, .parsed, some 3⟩,
    ⟨⟨.block, ([2], ())⟩, ⟨0, 6⟩, .parsed, none⟩]
  root := some 3

/-- Completes the call and its statement, and then puts a bracket before what completes them. -/
def completions : EditLog where
  insertions := [⟨.closeParen, [.semicolon], 3, none, false⟩, ⟨.closeBracket, [], 3, none, false⟩]

/-- The call takes the bracket, which does not belong there, and then its parenthesis. The statement
takes the semicolon. The bracket alone makes the block unreliable. -/
theorem propagate_insertions_brokenCall : brokenCall.WellFormed ∧ brokenCall.NamesWritten ∧
    brokenCall.AnnotationsPlain ∧ ∃ tree', propagate brokenCall [] completions = some (tree', []) ∧
      tree'.recoveredNodes = {1, 2, 3} := by
  have hlink : Tree.link brokenCall.nodes brokenCall.root = .ok brokenCall := by decide +kernel
  have hnodes : ∀ node ∈ brokenCall.nodes, node.isMissingName = false ∧
      node.shape ≠ .annotationNormal ∧ node.shape ≠ .annotationSingle := by decide +kernel
  have hwf : brokenCall.WellFormed := Tree.wellFormed_of_link hlink
  have hnames : brokenCall.NamesWritten := fun _ _ h => (hnodes _ (Array.mem_of_getElem? h)).1
  have hplain : brokenCall.AnnotationsPlain := fun _ _ h => (hnodes _ (Array.mem_of_getElem? h)).2
  have hreplacements : completions.replacements = [] := rfl
  obtain ⟨tree', hpropagate, -, hrecovered⟩ := propagate_insertions hwf
    (Tree.root_lt_size_of_link hlink) hnames hplain hreplacements rfl
  refine ⟨hwf, hnames, hplain, tree', hpropagate, hrecovered.trans ?_⟩
  decide +kernel

end SyntaxRecovery
