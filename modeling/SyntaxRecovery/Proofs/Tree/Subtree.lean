import SyntaxRecovery.Proofs.Tree.Edits
import SyntaxRecovery.Tree.Walk

/-! Changes that stay below a node. A walk that makes only such changes at each node it leaves makes
only such changes as a whole, and the children it has collected stay where they are. -/
namespace SyntaxRecovery.Tree
variable {tree tree' tree'' : Tree} {id top child parent old new : NodeId}

/-- The node `id` is `top` or below it. -/
def Below (tree : Tree) (top id : NodeId) : Prop :=
  Relation.ReflTransGen (fun child parent => tree.parent? child = some parent) id top

namespace Below

theorem refl : tree.Below top top := Relation.ReflTransGen.refl

theorem step (h : tree.parent? id = some parent) (hp : tree.Below top parent) : tree.Below top id :=
  Relation.ReflTransGen.head h hp

theorem of_parent (h : tree.parent? top = some parent) (hid : tree.Below top id) :
    tree.Below parent id :=
  Relation.ReflTransGen.tail hid h

theorem lt_size (h : tree.Below top id) (htop : top < tree.size) : id < tree.size := by
  rcases Relation.ReflTransGen.cases_head h with rfl | ⟨parent, hparent, -⟩
  · exact htop
  · exact lt_size_of_parent? hparent

/-- Of two nodes above one node, one is above the other. -/
theorem total {other : NodeId} (h : tree.Below top id) (ho : tree.Below other id) :
    tree.Below top other ∨ tree.Below other top := by
  have hunique : Relator.RightUnique fun child parent => tree.parent? child = some parent :=
    fun _ _ _ ha hb => Option.some.inj (ha.symm.trans hb)
  exact (Relation.ReflTransGen.total_of_right_unique hunique h ho).symm

/-- What is properly above a node is above its parent. -/
theorem parent_of_ne (h : tree.Below top id) (hne : id ≠ top) (hp : tree.parent? id = some parent) :
    tree.Below top parent := by
  rcases Relation.ReflTransGen.cases_head h with heq | ⟨next, hnext, hrest⟩
  · exact absurd heq hne
  · rw [Option.some.inj (hp.symm.trans hnext)]
    exact hrest

/-- A parent is not below its child. -/
theorem not_parent (hwf : tree.WellFormed) (h : tree.parent? child = some parent) :
    ¬ tree.Below child parent := by
  intro hp
  exact hwf.not_mem_ancestors child (hwf.mem_ancestors_iff.mpr (Relation.TransGen.head' h hp))

theorem antisymm (hwf : tree.WellFormed) (h : tree.Below top id) (h' : tree.Below id top) :
    id = top := by
  rcases Relation.ReflTransGen.cases_head h with heq | ⟨next, hnext, hrest⟩
  · exact heq
  · exact absurd (hrest.trans h') (not_parent hwf hnext)

/-- Nothing is below two children of one node. -/
theorem not_sibling {other : NodeId} (hwf : tree.WellFormed) (h : tree.parent? child = some parent)
    (ho : tree.parent? other = some parent) (hne : child ≠ other) (hid : tree.Below child id) :
    ¬ tree.Below other id := by
  intro hid'
  have hunique : Relator.RightUnique fun child parent => tree.parent? child = some parent :=
    fun _ _ _ ha hb => Option.some.inj (ha.symm.trans hb)
  rcases Relation.ReflTransGen.total_of_right_unique hunique hid hid' with hup | hup
  · rcases Relation.ReflTransGen.cases_head hup with heq | ⟨next, hnext, hrest⟩
    · exact hne heq
    · obtain rfl := Option.some.inj (h.symm.trans hnext)
      exact not_parent hwf ho hrest
  · rcases Relation.ReflTransGen.cases_head hup with heq | ⟨next, hnext, hrest⟩
    · exact hne heq.symm
    · obtain rfl := Option.some.inj (ho.symm.trans hnext)
      exact not_parent hwf h hrest

/-- What is below a node is the node itself or below one of its children. -/
theorem iff_child (hwf : tree.WellFormed) :
    tree.Below top id ↔ id = top ∨ ∃ child ∈ tree.children top, tree.Below child id := by
  constructor
  · intro hid
    rcases Relation.ReflTransGen.cases_tail hid with heq | ⟨child, hchild, hparent⟩
    · exact .inl heq.symm
    · exact .inr ⟨child, (hwf.linked top child).mpr hparent, hchild⟩
  · rintro (rfl | ⟨child, hmem, hchild⟩)
    · exact .refl
    · exact hchild.of_parent ((hwf.linked top child).mp hmem)

end Below

/-- The node and all that is below it fit into `depth` levels. -/
def Fits (tree : Tree) : (depth : Nat) → NodeId → Prop
  | 0, _ => False
  | depth + 1, id => ∀ child ∈ tree.children id, tree.Fits depth child

theorem Fits.congr {depth : Nat} (h : tree.Fits depth top) (hwf : tree.WellFormed)
    (hsame : ∀ id, tree.Below top id → tree'.children id = tree.children id) :
    tree'.Fits depth top := by
  induction depth generalizing top with
  | zero => exact h
  | succ depth ih =>
    intro child hc
    rw [hsame top .refl] at hc
    have hparent := (hwf.linked top child).mp hc
    exact ih (h child hc) fun id hid => hsame id (hid.of_parent hparent)

/-- As many levels as the tree has nodes are enough for a node of the tree, less those above. -/
theorem WellFormed.fits_of_lt_size (hwf : tree.WellFormed) {depth : Nat} (hid : id < tree.size)
    (h : tree.size ≤ depth + (tree.ancestors id).length) : tree.Fits depth id := by
  induction depth generalizing id with
  | zero =>
    have hup : tree.Climbs (some id) (id :: tree.ancestors id) := .up (hwf.climbs_ancestors id)
    have hlength := hwf.length_le_size hup (by simpa using hid)
    rw [List.length_cons] at hlength
    omega
  | succ depth ih =>
    intro child hc
    have hparent := (hwf.linked id child).mp hc
    apply ih (hwf.child_lt_size hc)
    rw [hwf.ancestors_of_parent? hparent, List.length_cons]
    omega

/-- With one level more they are enough for any id. -/
theorem WellFormed.fits (hwf : tree.WellFormed) {depth : Nat}
    (h : tree.size < depth + (tree.ancestors id).length) : tree.Fits depth id := by
  by_cases hid : id < tree.size
  · exact hwf.fits_of_lt_size hid (Nat.le_of_lt h)
  · cases depth with
    | zero =>
      have := hwf.length_le_size (hwf.climbs_ancestors id) fun _ hp => hwf.parent_lt_size hp
      omega
    | succ depth => exact fun child hc => absurd (lt_size_of_mem_children hc) hid

/-- `tree'` is well-formed, and is `tree` but for the node `id` and what is below it, for new nodes,
and for flags. The node itself keeps its parent. -/
structure ChangedBelow (id : NodeId) (tree tree' : Tree) : Prop where
  wellFormed : tree'.WellFormed
  root_eq : tree'.root = tree.root
  size_le : tree.size ≤ tree'.size
  parent?_eq : tree'.parent? id = tree.parent? id
  skeleton_eq : ∀ other < tree.size, ¬ tree.Below id other →
    tree'.skeleton other = tree.skeleton other

/-- The nodes that may change when changes stay below `id`. -/
def Region (tree : Tree) (id other : NodeId) : Prop := tree.Below id other ∨ tree.size ≤ other

theorem size_eq_of_skeleton (h : tree'.skeleton = tree.skeleton) : tree'.size = tree.size := by
  have hnone (id : NodeId) : tree'.node? id = none ↔ tree.node? id = none := by
    have := congrFun h id
    simp only [skeleton] at this
    rw [← Option.map_eq_none_iff, this, Option.map_eq_none_iff]
  apply Nat.le_antisymm
  · exact node?_eq_none_iff.mp ((hnone _).mpr (node?_eq_none_iff.mpr (Nat.le_refl _)))
  · exact node?_eq_none_iff.mp ((hnone _).mp (node?_eq_none_iff.mpr (Nat.le_refl _)))

namespace ChangedBelow

/-- Changes to flags count for nothing. -/
theorem of_skeleton (hwf : tree.WellFormed) (hroot : tree'.root = tree.root)
    (hs : tree'.skeleton = tree.skeleton) : ChangedBelow id tree tree' where
  wellFormed := hwf.congr_skeleton hs
  root_eq := hroot
  size_le := Nat.le_of_eq (size_eq_of_skeleton hs).symm
  parent?_eq := parent?_congr (congrFun hs id)
  skeleton_eq other _ _ := congrFun hs other

theorem refl (hwf : tree.WellFormed) : ChangedBelow id tree tree := of_skeleton hwf rfl rfl

/-- What comes below a node was below it before or is new. -/
theorem below (h : ChangedBelow id tree tree') (hwf : tree.WellFormed) {other : NodeId}
    (hb : tree'.Below id other) (ho : other < tree.size) : tree.Below id other := by
  revert ho
  induction hb using Relation.ReflTransGen.head_induction_on with
  | refl => exact fun _ => .refl
  | @head child parent hp _ ih =>
    intro ho
    by_contra hnot
    have hp' := hp
    rw [parent?_congr (h.skeleton_eq child ho hnot)] at hp'
    exact hnot (Below.step hp' (ih (hwf.parent_lt_size hp')))

theorem trans (h : ChangedBelow id tree tree') (hwf : tree.WellFormed)
    (h' : ChangedBelow id tree' tree'') : ChangedBelow id tree tree'' where
  wellFormed := h'.wellFormed
  root_eq := h'.root_eq.trans h.root_eq
  size_le := Nat.le_trans h.size_le h'.size_le
  parent?_eq := h'.parent?_eq.trans h.parent?_eq
  skeleton_eq other ho hnot := by
    refine (h'.skeleton_eq other (Nat.lt_of_lt_of_le ho h.size_le) ?_).trans
      (h.skeleton_eq other ho hnot)
    exact fun hb => hnot (h.below hwf hb ho)

/-- What stays below a child stays below its parent. -/
theorem of_child (h : ChangedBelow child tree tree') (hwf : tree.WellFormed)
    (hp : tree.parent? child = some id) : ChangedBelow id tree tree' where
  wellFormed := h.wellFormed
  root_eq := h.root_eq
  size_le := h.size_le
  parent?_eq := parent?_congr (h.skeleton_eq id (hwf.parent_lt_size hp) (Below.not_parent hwf hp))
  skeleton_eq other ho hnot := h.skeleton_eq other ho fun hb => hnot (hb.of_parent hp)

/-- A child of a node in the region is in the region, and is not its top. -/
theorem region_child (h : ChangedBelow id tree tree') (hwf : tree.WellFormed)
    (hp : tree.Region id parent) (hc : tree'.parent? child = some parent) :
    tree.Region id child ∧ child ≠ id := by
  have hbelow (hlt : parent < tree.size) : tree.Below id parent :=
    hp.resolve_right (Nat.not_le_of_lt hlt)
  constructor
  · by_contra hnot
    obtain ⟨hnot, hlt⟩ := not_or.mp hnot
    rw [parent?_congr (h.skeleton_eq child (Nat.lt_of_not_le hlt) hnot)] at hc
    exact hnot (Below.step hc (hbelow (hwf.parent_lt_size hc)))
  · rintro rfl
    rw [h.parent?_eq] at hc
    exact Below.not_parent hwf hc (hbelow (hwf.parent_lt_size hc))

theorem unlinks (h : ChangedBelow id tree tree') (hwf : tree.WellFormed)
    (hu : Unlinks tree' tree'' parent child) (hp : tree.Region id parent) :
    ChangedBelow id tree tree'' := by
  obtain ⟨hchild, hne⟩ := h.region_child hwf hp hu.attached
  refine ⟨h.wellFormed.unlinks hu, hu.root_eq.trans h.root_eq, hu.size_eq ▸ h.size_le, ?_,
    fun other ho hnot => ?_⟩
  · rw [hu.parent?_eq, if_neg hne.symm, h.parent?_eq]
  · have hout : ¬ tree.Region id other := not_or.mpr ⟨hnot, Nat.not_le_of_lt ho⟩
    refine (hu.skeleton_eq other ?_ ?_).trans (h.skeleton_eq other ho hnot)
    · rintro rfl
      exact hout hp
    · rintro rfl
      exact hout hchild

theorem exchanges (h : ChangedBelow id tree tree') (hwf : tree.WellFormed)
    (he : Exchanges tree' tree'' parent old new) (hp : tree.Region id parent)
    (hnew : tree.Region id new) (hne : new ≠ id) : ChangedBelow id tree tree'' := by
  obtain ⟨hold, hne'⟩ := h.region_child hwf hp he.attached
  refine ⟨h.wellFormed.exchanges he, he.root_eq.trans h.root_eq,
    Nat.le_trans h.size_le he.size_le, ?_, fun other ho hnot => ?_⟩
  · rw [he.parent?_eq, if_neg hne.symm, if_neg hne'.symm, h.parent?_eq]
  · have hout : ¬ tree.Region id other := not_or.mpr ⟨hnot, Nat.not_le_of_lt ho⟩
    refine (he.skeleton_eq other (Nat.lt_of_lt_of_le ho h.size_le) ?_ ?_ ?_).trans
      (h.skeleton_eq other ho hnot)
    · rintro rfl
      exact hout hp
    · rintro rfl
      exact hout hold
    · rintro rfl
      exact hout hnew

end ChangedBelow

section Walk
variable {σ : Type} (visitor : Visitor σ) (inv : Tree → σ → Prop)

/-- Steps at children of one node, one after the other, each of which changes only what is below its
child, change only what is below the node. -/
theorem foldlM_children {depth : Nat} (step : Tree × σ → NodeId → Option (Tree × σ))
    (hstep : ∀ {tree child state}, tree.WellFormed → child < tree.size → tree.Fits depth child →
      inv tree state → ∃ tree' state', step (tree, state) child = some (tree', state') ∧
        ChangedBelow child tree tree' ∧ inv tree' state')
    {ids : List NodeId} {state : σ} (hwf : tree.WellFormed) (hnodup : ids.Nodup)
    (hids : ∀ child ∈ ids, tree.parent? child = some id ∧ tree.Fits depth child)
    (hinv : inv tree state) : ∃ tree' state', ids.foldlM step (tree, state) = some (tree', state') ∧
      ChangedBelow id tree tree' ∧ inv tree' state' := by
  induction ids generalizing tree state with
  | nil => exact ⟨tree, state, rfl, .refl hwf, hinv⟩
  | cons child ids ih =>
    obtain ⟨hnot, hnodup⟩ := List.nodup_cons.mp hnodup
    obtain ⟨⟨hparent, hfits⟩, hids⟩ := List.forall_mem_cons.mp hids
    obtain ⟨next, state', hnext, hchanged, hinv'⟩ :=
      hstep hwf (lt_size_of_parent? hparent) hfits hinv
    have hrest : ∀ other ∈ ids, next.parent? other = some id ∧ next.Fits depth other := by
      intro other ho
      obtain ⟨hp, hf⟩ := hids other ho
      have hne : other ≠ child := fun heq => hnot (heq ▸ ho)
      have hapart {x : NodeId} (hx : tree.Below other x) : ¬ tree.Below child x :=
        Below.not_sibling hwf hp hparent hne hx
      constructor
      · rw [parent?_congr (hchanged.skeleton_eq other (lt_size_of_parent? hp) (hapart .refl))]
        exact hp
      · refine hf.congr hwf fun x hx => ?_
        exact children_congr
          (hchanged.skeleton_eq x (hx.lt_size (lt_size_of_parent? hp)) (hapart hx))
    obtain ⟨last, state'', hlast, hchanged', hinv''⟩ := ih hchanged.wellFormed hnodup hrest hinv'
    refine ⟨last, state'', ?_, (hchanged.of_child hwf hparent).trans hwf hchanged', hinv''⟩
    rw [List.foldlM_cons, hnext]
    exact hlast

/-- A walk reaches its end where entering and leaving a node do, and then has changed only what is
below the node where it started. The invariant relates the state to the tree as it is at the
time. -/
theorem walkFrom_total
    (henter : ∀ {tree id state}, tree.WellFormed → id < tree.size → inv tree state →
      ∃ descend state', visitor.enter tree id state = some (descend, state') ∧ inv tree state')
    (hleave : ∀ {tree id state}, tree.WellFormed → id < tree.size → inv tree state →
      ∃ tree' state', visitor.leave tree id state = some (tree', state') ∧
        ChangedBelow id tree tree' ∧ inv tree' state')
    {depth : Nat} {state : σ} (hwf : tree.WellFormed) (hid : id < tree.size)
    (hfits : tree.Fits depth id) (hinv : inv tree state) :
    ∃ tree' state', walkFrom visitor depth id (tree, state) = some (tree', state') ∧
      ChangedBelow id tree tree' ∧ inv tree' state' := by
  induction depth generalizing tree id state with
  | zero => exact hfits.elim
  | succ depth ih =>
    obtain ⟨descend, entered, hentered, hinv⟩ := henter hwf hid hinv
    obtain ⟨node, hnode⟩ := node?_of_lt_size hid
    cases descend with
    | false =>
      obtain ⟨tree', state', hleft, hchanged, hinv⟩ := hleave hwf hid hinv
      refine ⟨tree', state', ?_, hchanged, hinv⟩
      simpa [walkFrom, hentered] using hleft
    | true =>
      have hchildren := children_of_node? hnode
      obtain ⟨walked, reached, hwalked, hchanged, hinv⟩ := foldlM_children inv
        (fun reached child => walkFrom visitor depth child reached) ih hwf (hwf.nodup id)
        (fun child hc => ⟨(hwf.linked id child).mp hc, hfits child hc⟩) hinv
      obtain ⟨tree', state', hleft, hchanged', hinv⟩ :=
        hleave hchanged.wellFormed (Nat.lt_of_lt_of_le hid hchanged.size_le) hinv
      refine ⟨tree', state', ?_, hchanged.trans hwf hchanged', hinv⟩
      rw [hchildren] at hwalked
      simpa [walkFrom, hentered, hnode, hwalked] using hleft

end Walk
end SyntaxRecovery.Tree
