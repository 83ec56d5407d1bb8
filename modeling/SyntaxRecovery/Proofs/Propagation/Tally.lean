import SyntaxRecovery.Proofs.Propagation.Leaving

/-! What the nodes come to that a walk leaves, if nobody waits. Each node adds to the tally what it
claims, flags and settles, at once. A walk is told by the nodes that it goes below. -/
namespace SyntaxRecovery

namespace Claims
variable {tree : Tree} {claims : Claims} {id other : NodeId} {reason : Bool}

/-- The claims with one more node flagged, if there is a reason to. -/
def flagIf (claims : Claims) (id : NodeId) (reason : Bool) : Claims where
  waiting := claims.waiting
  flagged := if reason then insert id claims.flagged else claims.flagged

@[simp] theorem flagIf_false : claims.flagIf id false = claims := rfl

/-- A flag does not matter to the claims that follow. -/
theorem claim_flagIf :
    (claims.flagIf other reason).claim tree id = (claims.claim tree id).flagIf other reason := by
  cases reason with
  | false => rfl
  | true =>
    cases hnode : tree.node? id with
    | none => simp only [claim, atEnd, inside, hnode]
    | some node =>
      have htaken : (claims.flagIf other true).takenAtEnd node = claims.takenAtEnd node := rfl
      refine Claims.ext (funext fun offset => ?_) ?_
      · simp only [claim, flagIf, waiting_inside hnode, waiting_atEnd hnode]
        rfl
      · simp only [claim, flagIf, flagged_inside hnode, flagged_atEnd hnode, waiting_atEnd hnode]
        simp only [if_true, Finset.insert_union]
        rfl

theorem foldl_claim_flagIf (run : List NodeId) :
    run.foldl (claim tree) (claims.flagIf other reason) =
    (run.foldl (claim tree) claims).flagIf other reason := by
  induction run generalizing claims with
  | nil => rfl
  | cons id run ih => rw [List.foldl_cons, List.foldl_cons, claim_flagIf, ih]

end Claims

/-- The last value of an annotation. -/
def NodeKind.lastValue? : NodeKind → Option NodeId
  | ⟨.annotationNormal, (_, values, _)⟩ => values.getLast?
  | ⟨.annotationSingle, (_, value, _)⟩ => some value
  | _ => none

theorem NodeKind.mem_of_lastValue? {kind : NodeKind} {value : NodeId}
    (h : kind.lastValue? = some value) : value ∈ kind.children := by
  unfold lastValue? at h
  split at h
  · next type values _ =>
    exact List.mem_append_right [type] (List.mem_append_left [] (List.mem_of_getLast? h))
  · next type other _ =>
    obtain rfl := Option.some.inj h
    exact List.mem_cons_of_mem type List.mem_cons_self
  · cases h

theorem NodeKind.lastValue?_eq_none {kind : NodeKind} (hnormal : kind.shape ≠ .annotationNormal)
    (hsingle : kind.shape ≠ .annotationSingle) : kind.lastValue? = none := by
  unfold lastValue?
  split
  · exact absurd rfl hnormal
  · exact absurd rfl hsingle
  · rfl

namespace Tree
variable {tree : Tree} {id : NodeId} {node : Node}

/-- The node is an annotation that ends where its last value does. -/
def IsTruncated (tree : Tree) (id : NodeId) : Prop :=
  ∃ node ∈ tree.node? id, ∃ value ∈ node.kind.lastValue?, ∃ inner ∈ tree.node? value,
    inner.span.stop = node.span.stop

instance (tree : Tree) (id : NodeId) : Decidable (tree.IsTruncated id) :=
  inferInstanceAs (Decidable (∃ node ∈ _, ∃ value ∈ _, ∃ inner ∈ _, _ = _))

theorem flagTruncated_eq (hwf : tree.WellFormed) (hnode : tree.node? id = some node) :
    tree.flagTruncated id = tree.flagIf id (tree.IsTruncated id) := by
  simp only [flagTruncated, hnode, Option.bind_eq_bind, Option.bind_some]
  split
  · next hnone =>
    have hlast : node.kind.lastValue? = none := hnone
    simp [flagIf, IsTruncated, hnode, hlast]
  · next value hsome =>
    have hlast : node.kind.lastValue? = some value := hsome
    obtain ⟨inner, hinner⟩ := exists_child_node hwf hnode (NodeKind.mem_of_lastValue? hlast)
    by_cases hstop : inner.span.stop = node.span.stop <;>
      simp [flagIf, flagRecovered, IsTruncated, hnode, hlast, hinner, hstop]

@[simp] theorem isTruncated_markAll {marked : Finset NodeId} :
    (tree.markAll marked).IsTruncated id ↔ tree.IsTruncated id := by
  have hkind (id : NodeId) (node : Node) : (if id ∈ marked then
      { node with flags := node.flags.union .recovered } else node).kind = node.kind := by
    split <;> rfl
  have hspan (id : NodeId) (node : Node) : (if id ∈ marked then
      { node with flags := node.flags.union .recovered } else node).span = node.span := by
    split <;> rfl
  simp only [IsTruncated, node?_markAll, Option.mem_def, Option.map_eq_some_iff,
    exists_exists_and_eq_and, hkind, hspan]

/-- Where all names are written, only truncated annotations outside of blocks are repaired. -/
theorem repair_eq_of_written (hwf : tree.WellFormed) (h : tree.NamesWritten)
    (hnode : tree.node? id = some node) (inBody : Bool) : tree.repair id node.shape inBody =
      tree.flagIf id (!inBody && decide (tree.IsTruncated id)) := by
  have hannotation : (if inBody then some tree else tree.flagTruncated id) =
      tree.flagIf id (!inBody && decide (tree.IsTruncated id)) := by
    cases inBody with
    | true => rfl
    | false =>
      rw [flagTruncated_eq hwf hnode]
      rfl
  have hplain (hnormal : node.shape ≠ .annotationNormal)
      (hsingle : node.shape ≠ .annotationSingle) :
      tree.flagIf id (!inBody && decide (tree.IsTruncated id)) = some tree := by
    simp [flagIf, IsTruncated, hnode, NodeKind.lastValue?_eq_none hnormal hsingle]
  unfold repair
  split
  · next hshape =>
    rw [hplain (by rw [hshape]; decide) (by rw [hshape]; decide)]
    exact collapseAssignment_of_written hwf h hnode
  · next hshape =>
    rw [hplain (by rw [hshape]; decide) (by rw [hshape]; decide)]
    exact dropForDeclaration_of_written hwf h hnode
  · next hshape =>
    rw [hplain (by rw [hshape]; decide) (by rw [hshape]; decide)]
    exact clearInitializers_of_written hwf h hnode
  · exact hannotation
  · exact hannotation
  · next hnormal hsingle => exact (hplain hnormal hsingle).symm

theorem NamesWritten.markAll (h : tree.NamesWritten) (marked : Finset NodeId) :
    (tree.markAll marked).NamesWritten := by
  intro id node hnode
  rw [node?_markAll, Option.map_eq_some_iff] at hnode
  obtain ⟨node, hnode, rfl⟩ := hnode
  have hwritten := h id node hnode
  split <;> exact hwritten

/-- The same repairs are called for whatever is flagged. -/
theorem repair_markAll_eq (hwf : tree.WellFormed) (h : tree.NamesWritten)
    (hnode : tree.node? id = some node) (marked : Finset NodeId) (inBody : Bool) :
    (tree.markAll marked).repair id node.shape inBody =
      (tree.markAll marked).flagIf id (!inBody && decide (tree.IsTruncated id)) := by
  obtain ⟨other, hother, -, hshape, -⟩ := node?_markAll_of_node? marked hnode
  have hrepair :=
    repair_eq_of_written (hwf.congr_skeleton skeleton_markAll) (h.markAll marked) hother inBody
  rwa [hshape, decide_eq_decide.mpr isTruncated_markAll] at hrepair

theorem AnnotationsPlain.not_isTruncated (hplain : tree.AnnotationsPlain) (id : NodeId) :
    ¬ tree.IsTruncated id := by
  rintro ⟨node, hnode, value, hvalue, -⟩
  obtain ⟨hnormal, hsingle⟩ := hplain id node hnode
  rw [NodeKind.lastValue?_eq_none hnormal hsingle] at hvalue
  cases hvalue

/-- Where all names are written and annotations are plain, nothing is repaired. -/
theorem repair_markAll_of_written (hwf : tree.WellFormed) (h : tree.NamesWritten)
    (hplain : tree.AnnotationsPlain) (hnode : tree.node? id = some node) {marked : Finset NodeId}
    (inBody : Bool) : (tree.markAll marked).repair id node.shape inBody =
      some (tree.markAll marked) := by
  rw [repair_markAll_eq hwf h hnode, decide_eq_false (hplain.not_isTruncated id), Bool.and_false]
  rfl

end Tree

/-- What the nodes that a walk has left come to: the claims on inserted tokens with all flags, the
diagnostics, and the removed and replaced stretches. -/
structure Tally where
  claims : Claims
  concerns : List Concern
  stretches : List Stretch

namespace Tally
variable {tree : Tree} {log : EditLog} {tally : Tally} {id : NodeId} {node : Node}
  {descends : Nat → Span → Bool} {levels depth : Nat} {diagnostics : List Diagnostic}

def start (log : EditLog) (diagnostics : List Diagnostic) : Tally where
  claims := .ofLog log
  concerns := diagnostics.map fun diagnostic => { diagnostic }
  stretches := Stretch.ofLog log

/-- The node claims a removed or replaced stretch. -/
def claimsStretch (tally : Tally) (node : Node) : Bool := tally.stretches.any fun stretch =>
  ¬ stretch.claimed ∧ node.span.Encloses stretch.start stretch.last

/-- A node inside of a block claims tokens and stretches. -/
def leaveBody (tree : Tree) (id : NodeId) (node : Node) (tally : Tally) : Tally where
  claims := (tally.claims.claim tree id).flagIf id (tally.claimsStretch node)
  concerns := tally.concerns.map (Concern.settle node.span)
  stretches := tally.stretches.map (Stretch.claim node.span)

/-- A unit of the outline is flagged for a diagnostic. -/
def leaveOutline (id : NodeId) (node : Node) (tally : Tally) : Tally :=
  if node.shape.isOutlineUnit then
    { tally with
      claims := tally.claims.flagIf id (tally.concerns.any fun concern => concern.Hits node.span)
      concerns := tally.concerns.map (Concern.settle node.span) }
  else tally

/-- A node is left with so many blocks around it. Outside of blocks a truncated annotation is
flagged. -/
def leave (tree : Tree) (id : NodeId) (node : Node) (depth : Nat) (tally : Tally) : Tally :=
  if 0 < depth then tally.leaveBody tree id node
  else
    let left := tally.leaveOutline id node
    { left with claims := left.claims.flagIf id (tree.IsTruncated id) }

/-- What a walk over a node and what is below it adds, where `descends` tells below which nodes it
goes. -/
def walkFrom (tree : Tree) (descends : Nat → Span → Bool) :
    (levels depth : Nat) → Tally → NodeId → Tally
  | 0, _, tally, _ => tally
  | levels + 1, depth, tally, id =>
    match tree.node? id with
    | none => tally
    | some node =>
      let below := if descends depth node.span then node.kind.children.foldl
        (walkFrom tree descends levels (depth + if node.shape = .block then 1 else 0)) tally
        else tally
      below.leave tree id node depth

theorem walkFrom_succ (hnode : tree.node? id = some node) :
    tally.walkFrom tree descends (levels + 1) depth id =
      (if descends depth node.span then node.kind.children.foldl
        (walkFrom tree descends levels (depth + if node.shape = .block then 1 else 0)) tally
        else tally).leave tree id node depth := by
  simp only [walkFrom, hnode]

/-- The edits are those of the log, claimed or not. -/
structure Serves (log : EditLog) (tally : Tally) : Prop where
  waitsAt : tally.claims.WaitsAt ((Offer.ofLog log).map (·.offset))
  ranges_eq : tally.stretches.map Stretch.range = (Stretch.ofLog log).map Stretch.range

namespace Serves

theorem start : Serves log (.start log diagnostics) where
  waitsAt := by
    have hwaits := Claims.waitsAt_waitingOf (Offer.ofLog log) ∅
    rw [Claims.waitingOf_ofLog] at hwaits
    exact hwaits
  ranges_eq := rfl

theorem leaveBody (h : Serves log tally) : Serves log (tally.leaveBody tree id node) where
  waitsAt := (h.waitsAt.atEnd id).inside id
  ranges_eq := (Attribution.map_range_claim node.span tally.stretches).trans h.ranges_eq

theorem leaveOutline (h : Serves log tally) : Serves log (tally.leaveOutline id node) := by
  unfold Tally.leaveOutline
  split
  · exact ⟨h.waitsAt, h.ranges_eq⟩
  · exact h

theorem leave (h : Serves log tally) : Serves log (tally.leave tree id node depth) := by
  unfold Tally.leave
  split
  · exact h.leaveBody
  · exact ⟨h.leaveOutline.waitsAt, h.leaveOutline.ranges_eq⟩

theorem walkFrom (h : Serves log tally) :
    Serves log (tally.walkFrom tree descends levels depth id) := by
  induction levels generalizing id depth tally with
  | zero => exact h
  | succ levels ih =>
    cases hnode : tree.node? id with
    | none => simpa only [Tally.walkFrom, hnode] using h
    | some node =>
      rw [walkFrom_succ hnode]
      apply leave
      split
      · exact List.foldlRecOn _ _ h fun _ hserves _ _ => ih hserves
      · exact h

end Serves
end Tally
end SyntaxRecovery
