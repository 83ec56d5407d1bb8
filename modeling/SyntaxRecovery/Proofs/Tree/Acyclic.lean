import SyntaxRecovery.Proofs.Tree.Forest
import SyntaxRecovery.Tree.Link

/-! The check for cycles. It walks every chain of parents once, and passes exactly where no chain of
parents comes back to where it started. -/
namespace SyntaxRecovery.Tree
variable {tree : Tree} {marks marks' : Array Mark} {path path' : List NodeId} {next : Option NodeId}
  {id : NodeId}

/-- No node is above itself. -/
def Acyclic (tree : Tree) : Prop :=
  ∀ id, ¬ Relation.TransGen (fun child parent => tree.parent? child = some parent) id id

/-- The whole way up from `next` exists. -/
def Ends (tree : Tree) (next : Option NodeId) : Prop := ∃ chain, tree.Climbs next chain

theorem ends_some (h : tree.Ends (tree.parent? id)) : tree.Ends (some id) := by
  obtain ⟨chain, hchain⟩ := h
  exact ⟨id :: chain, .up hchain⟩

theorem ends_parent? (h : tree.Ends (some id)) : tree.Ends (tree.parent? id) := by
  obtain ⟨_, hchain⟩ := h
  cases hchain with
  | up rest => exact ⟨_, rest⟩

theorem ends_of_size_le (h : tree.size ≤ id) : tree.Ends (some id) := by
  have hnone : tree.parent? id = none := by simp [Tree.parent?, node?_eq_none_iff.mpr h]
  exact ends_some (hnone ▸ ⟨[], .finish⟩)

/-- `path`, its last node first, is a chain of parents that has got to `next`. -/
inductive Trail (tree : Tree) : List NodeId → Option NodeId → Prop
  | start (id : NodeId) : Trail tree [] (some id)
  | up {path : List NodeId} {id : NodeId} (rest : Trail tree path (some id)) :
    Trail tree (id :: path) (tree.parent? id)

namespace Trail

/-- Where the way goes on to an end, it ends for every node on the path. -/
theorem ends (h : tree.Trail path next) (hends : tree.Ends next) :
    ∀ id ∈ path, tree.Ends (some id) := by
  induction h with
  | start id => simp
  | @up path id rest ih =>
    have hid := ends_some hends
    exact List.forall_mem_cons.mpr ⟨hid, ih hid⟩

/-- The next node is above those on the path. -/
theorem transGen (h : tree.Trail path next) {above : NodeId} (hnext : next = some above) :
    ∀ id ∈ path,
      Relation.TransGen (fun child parent => tree.parent? child = some parent) id above := by
  induction h generalizing above with
  | start id => simp
  | @up path id rest ih =>
    refine List.forall_mem_cons.mpr ⟨.single hnext, fun other ho => ?_⟩
    exact (ih rfl other ho).tail hnext

end Trail

/-- What the marks say on the way: the nodes on the path are marked as such, and from a settled node
the way up comes to an end. -/
structure Marked (tree : Tree) (marks : Array Mark) (path : List NodeId) : Prop where
  size_eq : marks.size = tree.size
  onPath : ∀ id, marks[id]? = some .onPath ↔ id ∈ path
  settled : ∀ id, marks[id]? = some .settled → tree.Ends (some id)

namespace Marked

theorem start (tree : Tree) : tree.Marked (Array.replicate tree.size .unseen) [] where
  size_eq := Array.size_replicate
  onPath id := by simp [Array.getElem?_replicate]
  settled id h := by simp [Array.getElem?_replicate] at h

/-- An unseen node joins the path. -/
theorem step (h : tree.Marked marks path) (hid : marks[id]? = some .unseen) :
    tree.Marked (marks.setIfInBounds id .onPath) (id :: path) := by
  have hlt : id < marks.size := (Array.getElem?_eq_some_iff.mp hid).1
  refine ⟨by rw [Array.size_setIfInBounds, h.size_eq], fun other => ?_, fun other ho => ?_⟩
  · rw [Array.getElem?_setIfInBounds, List.mem_cons, ← h.onPath]
    by_cases heq : id = other
    · subst heq
      simp [hlt]
    · simp [heq, Ne.symm heq]
  · rw [Array.getElem?_setIfInBounds] at ho
    split at ho
    · cases ho
    · exact h.settled other ho

theorem getElem?_foldl_settle (marks : Array Mark) (path : List NodeId) (id : NodeId) :
    (path.foldl (fun marks id => marks.setIfInBounds id .settled) marks)[id]? =
      if id ∈ path then marks[id]?.map fun _ => .settled else marks[id]? := by
  induction path generalizing marks with
  | nil => simp
  | cons other path ih =>
    rw [List.foldl_cons, ih, Array.getElem?_setIfInBounds]
    by_cases heq : other = id
    · subst heq
      by_cases hlt : other < marks.size <;> simp [hlt]
    · simp [heq, Ne.symm heq]

theorem size_foldl_settle (marks : Array Mark) (path : List NodeId) :
    (path.foldl (fun marks id => marks.setIfInBounds id .settled) marks).size = marks.size := by
  induction path generalizing marks with
  | nil => rfl
  | cons other path ih => rw [List.foldl_cons, ih, Array.size_setIfInBounds]

/-- At the end of a chain its nodes are settled. -/
theorem settle (h : tree.Marked marks path) (hends : ∀ id ∈ path, tree.Ends (some id)) :
    tree.Marked (path.foldl (fun marks id => marks.setIfInBounds id .settled) marks) [] := by
  refine ⟨?_, fun id => ?_, fun id hid => ?_⟩
  · rw [size_foldl_settle, h.size_eq]
  · rw [getElem?_foldl_settle]
    split
    · cases marks[id]? <;> simp
    · next hmem => simp [h.onPath, hmem]
  · rw [getElem?_foldl_settle] at hid
    split at hid
    · next hmem => exact hends id hmem
    · exact h.settled id hid

end Marked

/-- A chain that is walked to its end ends for every node on it. -/
theorem walkChain_ok (htrail : tree.Trail path next) (hmarked : tree.Marked marks path)
    (h : tree.walkChain marks path next = .ok (marks', path')) :
    tree.Marked marks' path' ∧ tree.Ends next ∧ ∀ id ∈ path', tree.Ends (some id) := by
  fun_induction walkChain tree marks path next with
  | case1 marks path =>
    cases h
    have hends : tree.Ends none := ⟨[], .finish⟩
    exact ⟨hmarked, hends, htrail.ends hends⟩
  | case2 marks path id hmark =>
    cases h
    have hends : tree.Ends (some id) := ends_of_size_le
      (hmarked.size_eq ▸ Array.getElem?_eq_none_iff.mp hmark)
    exact ⟨hmarked, hends, htrail.ends hends⟩
  | case3 marks path id hmark =>
    cases h
    have hends := hmarked.settled id hmark
    exact ⟨hmarked, hends, htrail.ends hends⟩
  | case4 => cases h
  | case5 marks path id hmark ih =>
    obtain ⟨hmarked', hends, hpath⟩ := ih htrail.up (hmarked.step hmark) h
    exact ⟨hmarked', ends_some hends, hpath⟩

/-- A chain is only refused where it has a cycle; the error names a link of it. -/
theorem walkChain_error {error : TreeError} (htrail : tree.Trail path next)
    (hmarked : tree.Marked marks path) (h : tree.walkChain marks path next = .error error) :
    ∃ child parent, error = .cycle child parent ∧ tree.parent? child = some parent ∧
      Relation.TransGen (fun child parent => tree.parent? child = some parent) child child := by
  fun_induction walkChain tree marks path next with
  | case1 | case2 | case3 => cases h
  | case4 marks path id hmark =>
    cases h
    have hcycle := htrail.transGen rfl id ((hmarked.onPath id).mp hmark)
    obtain ⟨parent, hparent⟩ : ∃ parent, tree.parent? id = some parent := by
      cases hcycle using Relation.TransGen.head_induction_on with
      | single hp => exact ⟨_, hp⟩
      | head hp _ _ => exact ⟨_, hp⟩
    exact ⟨id, parent, by rw [hparent]; rfl, hparent, hcycle⟩
  | case5 marks path id hmark ih => exact ih htrail.up (hmarked.step hmark) h

theorem settleChain_ok (hmarked : tree.Marked marks [])
    (h : tree.settleChain marks id = .ok marks') : tree.Marked marks' [] ∧ tree.Ends (some id) := by
  unfold settleChain at h
  cases hwalk : tree.walkChain marks [] (some id) with
  | error error => rw [hwalk] at h; cases h
  | ok walked =>
    rw [hwalk] at h
    cases h
    obtain ⟨hmarked', hends, hpath⟩ := walkChain_ok (.start id) hmarked hwalk
    exact ⟨hmarked'.settle hpath, hends⟩

theorem settleChain_of_acyclic (hacyclic : tree.Acyclic) (hmarked : tree.Marked marks [])
    (id : NodeId) : ∃ marks', tree.settleChain marks id = .ok marks' := by
  unfold settleChain
  cases hwalk : tree.walkChain marks [] (some id) with
  | error error =>
    obtain ⟨child, -, -, -, hcycle⟩ := walkChain_error (.start id) hmarked hwalk
    exact absurd hcycle (hacyclic child)
  | ok walked => exact ⟨_, rfl⟩

theorem foldlM_settleChain_ok {ids : List NodeId} (hmarked : tree.Marked marks [])
    (h : ids.foldlM tree.settleChain marks = .ok marks') : ∀ id ∈ ids, tree.Ends (some id) := by
  induction ids generalizing marks with
  | nil => simp
  | cons id ids ih =>
    rw [List.foldlM_cons] at h
    cases hsettle : tree.settleChain marks id with
    | error error => rw [hsettle] at h; cases h
    | ok settled =>
      rw [hsettle] at h
      obtain ⟨hsettled, hends⟩ := settleChain_ok hmarked hsettle
      exact List.forall_mem_cons.mpr ⟨hends, ih hsettled h⟩

theorem foldlM_settleChain_of_acyclic (hacyclic : tree.Acyclic) (ids : List NodeId)
    (hmarked : tree.Marked marks []) :
    ∃ marks', ids.foldlM tree.settleChain marks = .ok marks' := by
  induction ids generalizing marks with
  | nil => exact ⟨marks, rfl⟩
  | cons id ids ih =>
    obtain ⟨settled, hsettle⟩ := settleChain_of_acyclic hacyclic hmarked id
    obtain ⟨marks', h⟩ := ih (settleChain_ok hmarked hsettle).1
    exact ⟨marks', by rw [List.foldlM_cons, hsettle]; exact h⟩

theorem checkAcyclic_eq_ok_iff_foldlM : tree.checkAcyclic = .ok () ↔
    ∃ marks, (List.range tree.size).foldlM tree.settleChain (.replicate tree.size .unseen) =
      .ok marks := by
  unfold checkAcyclic
  cases (List.range tree.size).foldlM tree.settleChain (.replicate tree.size .unseen) with
  | error error => simp [bind, Except.bind]
  | ok marks => simp [bind, Except.bind, pure, Except.pure]

/-- The check passes where the way up from every node comes to an end. -/
theorem checkAcyclic_eq_ok_iff :
    tree.checkAcyclic = .ok () ↔ ∀ id, tree.Ends (tree.parent? id) := by
  rw [checkAcyclic_eq_ok_iff_foldlM]
  constructor
  · rintro ⟨marks, h⟩ id
    apply ends_parent?
    by_cases hid : id < tree.size
    · exact foldlM_settleChain_ok (.start tree) h id (List.mem_range.mpr hid)
    · exact ends_of_size_le (Nat.le_of_not_lt hid)
  · intro hends
    apply foldlM_settleChain_of_acyclic _ _ (.start tree)
    intro id hcycle
    obtain ⟨chain, hchain⟩ := hends id
    exact hchain.not_mem (hchain.mem_iff.mpr hcycle)

/-- The check passes where the tree has no cycle. -/
theorem checkAcyclic_eq_ok_iff_acyclic : tree.checkAcyclic = .ok () ↔ tree.Acyclic := by
  constructor
  · intro h id hcycle
    obtain ⟨chain, hchain⟩ := checkAcyclic_eq_ok_iff.mp h id
    exact hchain.not_mem (hchain.mem_iff.mpr hcycle)
  · intro hacyclic
    exact checkAcyclic_eq_ok_iff_foldlM.mpr
      (foldlM_settleChain_of_acyclic hacyclic _ (.start tree))

end SyntaxRecovery.Tree
