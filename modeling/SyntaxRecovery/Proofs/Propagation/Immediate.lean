import SyntaxRecovery.Proofs.Propagation.Claims

/-! Attribution of inserted tokens without delay: each node that a walk leaves inside of a block
makes its claims at once. Where some nodes end together, they may as well make all their claims on
last bytes first. -/
namespace SyntaxRecovery

namespace Tree

/-- The nodes that a walk leaves inside of blocks, in the order in which it leaves them. Inside of a
block it goes below a node only where an insertion falls into the node. -/
def leftInBody (tree : Tree) (log : EditLog) :
    (levels : Nat) → (inBody : Bool) → NodeId → List NodeId
  | 0, _, _ => []
  | levels + 1, inBody, id =>
    match tree.node? id with
    | none => []
    | some node =>
      let touched := log.insertions.any fun edit => node.span.Encloses edit.anchor edit.anchor
      let below := if inBody && !touched then [] else node.kind.children.flatMap
        (leftInBody tree log levels (inBody || node.shape == .block))
      below ++ if inBody then [id] else []

/-- The claims on the insertions of a log that the nodes of a tree make. -/
def insertionClaims (tree : Tree) (log : EditLog) : Claims :=
  match tree.root with
  | none => .ofLog log
  | some root =>
    (tree.leftInBody log (tree.size + 1) false root).foldl (Claims.claim tree) (.ofLog log)

/-- The nodes that are flagged as recovered. -/
def recoveredNodes (tree : Tree) : Finset NodeId :=
  (Finset.range tree.size).filter fun id => (tree.node? id).any Node.isRecovered

theorem isRecovered_union (flags : NodeFlags) :
    (flags.union .recovered).contains .recovered = true := by
  simp only [NodeFlags.contains, NodeFlags.union, beq_iff_eq]
  apply UInt8.eq_of_toBitVec_eq
  rw [UInt8.toBitVec_and, UInt8.toBitVec_or]
  ext i hi
  simpa using Or.inr

theorem recoveredNodes_markAll {tree : Tree} {marked : Finset NodeId}
    (h : ∀ id ∈ marked, id < tree.size) :
    (tree.markAll marked).recoveredNodes = tree.recoveredNodes ∪ marked := by
  ext id
  simp only [recoveredNodes, Finset.mem_filter, Finset.mem_range, size_markAll, node?_markAll,
    Finset.mem_union]
  cases hnode : tree.node? id with
  | none =>
    have hsize := node?_eq_none_iff.mp hnode
    have hnot : id ∉ marked := fun hm => Nat.not_le_of_lt (h id hm) hsize
    simp [hnot]
  | some node =>
    have hlt := lt_size_of_node? hnode
    by_cases hm : id ∈ marked
    · simp [hm, hlt, Node.isRecovered, isRecovered_union]
    · simp [hm, hlt]

end Tree

namespace Claims
variable {tree : Tree} {claims : Claims} {a b : NodeId} {m n : Node}

theorem waiting_atEnd (hb : tree.node? b = some n) (offset : Nat) :
    (claims.atEnd tree b).waiting offset =
      if offset + 1 = n.span.stop then (claims.waiting offset).drop (claims.takenAtEnd n).length
      else claims.waiting offset := by
  simp only [atEnd, hb]

theorem flagged_atEnd (hb : tree.node? b = some n) : (claims.atEnd tree b).flagged =
    claims.flagged ∪ flagsAtEnd tree b n (claims.takenAtEnd n) := by
  simp only [atEnd, hb]

theorem waiting_inside (ha : tree.node? a = some m) (offset : Nat) :
    (claims.inside tree a).waiting offset =
      if m.span.start ≤ offset ∧ offset + 1 < m.span.stop then [] else claims.waiting offset := by
  simp only [inside, ha]

theorem flagged_inside (ha : tree.node? a = some m) : (claims.inside tree a).flagged =
    claims.flagged ∪ if ∃ offset < m.span.stop - 1, m.span.start ≤ offset ∧
      claims.waiting offset ≠ [] then {a} else ∅ := by
  simp only [inside, ha]

/-- What is inside of a node is not on the last byte of one that ends with it. -/
theorem takenAtEnd_inside (ha : tree.node? a = some m) (hstop : m.span.stop = n.span.stop) :
    (claims.inside tree a).takenAtEnd n = claims.takenAtEnd n := by
  unfold takenAtEnd
  split
  · next expected last _ hlast =>
    have hnot : ¬ (m.span.start ≤ last ∧ last + 1 < m.span.stop) := by omega
    rw [waiting_inside ha, if_neg hnot]
  · rfl

/-- A claim inside of one node and a claim on the last byte of another that ends with it do not
meet. -/
theorem inside_atEnd_comm (ha : tree.node? a = some m) (hb : tree.node? b = some n)
    (hstop : m.span.stop = n.span.stop) :
    (claims.atEnd tree b).inside tree a = (claims.inside tree a).atEnd tree b := by
  have htaken : (claims.inside tree a).takenAtEnd n = claims.takenAtEnd n :=
    takenAtEnd_inside ha hstop
  refine Claims.ext (funext fun offset => ?_) ?_
  · rw [waiting_inside ha, waiting_atEnd hb, waiting_atEnd hb, waiting_inside ha, htaken]
    by_cases hoffset : offset + 1 = n.span.stop
    · have hnot : ¬ (m.span.start ≤ offset ∧ offset + 1 < m.span.stop) := by omega
      rw [if_neg hnot, if_neg hnot]
    · rw [if_neg hoffset, if_neg hoffset]
  · have hany : (∃ offset < m.span.stop - 1, m.span.start ≤ offset ∧
        (claims.atEnd tree b).waiting offset ≠ []) ↔
          ∃ offset < m.span.stop - 1, m.span.start ≤ offset ∧ claims.waiting offset ≠ [] := by
      refine exists_congr fun offset => and_congr_right fun ho => ?_
      rw [waiting_atEnd hb, if_neg (by omega)]
    rw [flagged_inside ha, flagged_atEnd hb, flagged_atEnd hb, flagged_inside ha, htaken]
    simp only [hany]
    exact Finset.union_right_comm _ _ _

section Run
variable {run : List NodeId} {stop : Nat}

/-- Among nodes that end together, a claim inside of one may come before their claims on last
bytes. -/
theorem inside_foldl_atEnd (ha : tree.node? a = some m) (hm : m.span.stop = stop)
    (hrun : ∀ id ∈ run, ∃ node, tree.node? id = some node ∧ node.span.stop = stop) :
    (run.foldl (atEnd tree) claims).inside tree a =
      run.foldl (atEnd tree) (claims.inside tree a) := by
  induction run generalizing claims with
  | nil => rfl
  | cons b run ih =>
    obtain ⟨⟨n, hb, hn⟩, hrun⟩ := List.forall_mem_cons.mp hrun
    rw [List.foldl_cons, List.foldl_cons, ih hrun, inside_atEnd_comm ha hb (hm.trans hn.symm)]

/-- Nodes that end together may make all their claims on last bytes before those inside of them. -/
theorem foldl_inside_foldl_atEnd
    (hrun : ∀ id ∈ run, ∃ node, tree.node? id = some node ∧ node.span.stop = stop) :
    run.foldl (inside tree) (run.foldl (atEnd tree) claims) = run.foldl (claim tree) claims := by
  induction run generalizing claims with
  | nil => rfl
  | cons a run ih =>
    obtain ⟨⟨m, ha, hm⟩, hrun⟩ := List.forall_mem_cons.mp hrun
    calc (a :: run).foldl (inside tree) ((a :: run).foldl (atEnd tree) claims)
        = run.foldl (inside tree) ((run.foldl (atEnd tree) (claims.atEnd tree a)).inside tree a) :=
          rfl
      _ = run.foldl (inside tree) (run.foldl (atEnd tree) (claims.claim tree a)) := by
          rw [inside_foldl_atEnd ha hm hrun]
          rfl
      _ = run.foldl (claim tree) (claims.claim tree a) := ih hrun

end Run

/-- Where no token waits on a node, there is nothing for it to claim. -/
theorem claim_of_nothing_in (ha : tree.node? a = some m)
    (h : ∀ offset, offset + 1 = m.span.stop ∨ m.span.start ≤ offset ∧ offset + 1 < m.span.stop →
      claims.waiting offset = []) : claims.claim tree a = claims := by
  have htaken : claims.takenAtEnd m = [] := by
    unfold takenAtEnd
    split
    · next expected last _ hlast =>
      rw [h last (.inl hlast.symm)]
      rfl
    · rfl
  have hend : claims.atEnd tree a = claims := by
    refine Claims.ext (funext fun offset => ?_) ?_
    · rw [waiting_atEnd ha, htaken]
      simp
    · rw [flagged_atEnd ha, htaken]
      simp [flagsAtEnd]
  have hnone : ¬ ∃ offset < m.span.stop - 1, m.span.start ≤ offset ∧
      claims.waiting offset ≠ [] := by
    rintro ⟨offset, hlt, hstart, hne⟩
    exact hne (h offset (.inr ⟨hstart, by omega⟩))
  rw [claim, hend]
  refine Claims.ext (funext fun offset => ?_) ?_
  · rw [waiting_inside ha]
    split
    · next hinside => exact (h offset (.inr hinside)).symm
    · rfl
  · rw [flagged_inside ha, if_neg hnone, Finset.union_empty]

theorem claim_of_nothing (h : ∀ offset, claims.waiting offset = []) (id : NodeId) :
    claims.claim tree id = claims := by
  cases hnode : tree.node? id with
  | none => simp only [claim, atEnd, inside, hnode]
  | some node => exact claim_of_nothing_in hnode fun offset _ => h offset

/-- Only nodes of the tree are flagged. -/
theorem flagged_claim_lt (hwf : tree.WellFormed) (h : ∀ id ∈ claims.flagged, id < tree.size)
    (id : NodeId) : ∀ other ∈ (claims.claim tree id).flagged, other < tree.size := by
  cases hnode : tree.node? id with
  | none => simpa only [claim, atEnd, inside, hnode] using h
  | some node =>
    have hid := Tree.lt_size_of_node? hnode
    intro other ho
    rw [claim, flagged_inside hnode, flagged_atEnd hnode] at ho
    simp only [flagsAtEnd, Finset.mem_union] at ho
    rcases ho with (ho | ho | ho) | ho
    · exact h other ho
    · split at ho
      · cases ho
      · rw [Finset.mem_singleton.mp ho]
        exact hid
    · split at ho
      · cases ho
      · exact mem_around_lt hwf id node.span.stop other (List.mem_toFinset.mp ho)
    · split at ho
      · rw [Finset.mem_singleton.mp ho]
        exact hid
      · cases ho

theorem flagged_foldl_claim_lt (hwf : tree.WellFormed) {ids : List NodeId}
    (h : ∀ id ∈ claims.flagged, id < tree.size) :
    ∀ other ∈ (ids.foldl (claim tree) claims).flagged, other < tree.size := by
  induction ids generalizing claims with
  | nil => exact h
  | cons id ids ih => exact ih (flagged_claim_lt hwf h id)

end Claims
end SyntaxRecovery
