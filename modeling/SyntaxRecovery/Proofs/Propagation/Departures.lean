import Mathlib.Data.List.Chain
import SyntaxRecovery.Proofs.Propagation.Deferral
import SyntaxRecovery.Proofs.Propagation.Leaving

/-! The order in which a walk leaves the nodes of a tree. Although repairs change the tree below the
nodes that the walk has left, it is the order that the tree before the walk gives: the walk is a
fold over that list of nodes. -/
namespace SyntaxRecovery

/-- A node that a walk leaves, with the number of blocks around it on the way there. -/
structure Departure where
  id : NodeId
  depth : Nat
  deriving DecidableEq, Repr

namespace Tree

/-- The nodes that a walk over `id` leaves, in the order in which it leaves them. Inside of a block
it goes below a node only where an edit falls into the node. -/
def departuresFrom (tree : Tree) (log : EditLog) : (levels depth : Nat) → NodeId → List Departure
  | 0, _, _ => []
  | levels + 1, depth, id =>
    match tree.node? id with
    | none => []
    | some node =>
      let below := if depth = 0 ∨ log.Touches node.span then
          node.kind.children.flatMap
            (departuresFrom tree log levels (depth + if node.shape = .block then 1 else 0))
        else []
      below ++ [⟨id, depth⟩]

/-- The nodes that a walk over the tree leaves, in the order in which it leaves them. -/
def departures (tree : Tree) (log : EditLog) : List Departure :=
  tree.root.toList.flatMap (tree.departuresFrom log (tree.size + 1) 0)

variable {tree tree' : Tree} {log : EditLog} {id child parent : NodeId} {levels depth : Nat}
  {node : Node}

theorem departuresFrom_succ (hnode : tree.node? id = some node) :
    tree.departuresFrom log (levels + 1) depth id =
      (if depth = 0 ∨ log.Touches node.span then node.kind.children.flatMap
        (tree.departuresFrom log levels (depth + if node.shape = .block then 1 else 0)) else []) ++
          [⟨id, depth⟩] := by
  simp only [departuresFrom, hnode]

theorem node?_congr_skeleton (h : tree'.skeleton id = tree.skeleton id)
    (hnode : tree.node? id = some node) :
    ∃ node', tree'.node? id = some node' ∧ node'.kind = node.kind ∧ node'.span = node.span := by
  simp only [skeleton, hnode, Option.map_some, Option.map_eq_some_iff, Prod.mk.injEq] at h
  obtain ⟨node', hnode', hkind, hspan, -⟩ := h
  exact ⟨node', hnode', hkind, hspan⟩

/-- What lies below the node settles the order. -/
theorem departuresFrom_congr (hwf : tree.WellFormed) (hid : id < tree.size)
    (hsame : ∀ other, tree.Below id other → tree'.skeleton other = tree.skeleton other) :
    tree'.departuresFrom log levels depth id = tree.departuresFrom log levels depth id := by
  induction levels generalizing id depth with
  | zero => rfl
  | succ levels ih =>
    obtain ⟨node, hnode⟩ := node?_of_lt_size hid
    obtain ⟨node', hnode', hkind, hspan⟩ := node?_congr_skeleton (hsame id .refl) hnode
    have hshape : node'.shape = node.shape := congrArg NodeKind.shape hkind
    have hchildren : node.kind.children.flatMap (tree'.departuresFrom log levels
        (depth + if node.shape = .block then 1 else 0)) = node.kind.children.flatMap
          (tree.departuresFrom log levels (depth + if node.shape = .block then 1 else 0)) := by
      refine List.flatMap_congr fun child hc => ?_
      rw [← children_of_node? hnode] at hc
      have hparent := (hwf.linked id child).mp hc
      exact ih (hwf.child_lt_size hc) fun other ho => hsame other (ho.of_parent hparent)
    rw [departuresFrom_succ hnode', departuresFrom_succ hnode, hkind, hspan, hshape, hchildren]

/-- What changes below a node does not touch what is below its siblings. -/
theorem ChangedBelow.sibling {other x : NodeId} (h : ChangedBelow child tree tree')
    (hwf : tree.WellFormed) (hc : tree.parent? child = some id) (ho : tree.parent? other = some id)
    (hne : other ≠ child) (hx : tree.Below other x) : tree'.skeleton x = tree.skeleton x :=
  h.skeleton_eq x (hx.lt_size (lt_size_of_parent? ho)) (Below.not_sibling hwf ho hc hne hx)

section Order
variable {departure : Departure}

theorem below_of_mem_departuresFrom (hwf : tree.WellFormed)
    (h : departure ∈ tree.departuresFrom log levels depth id) : tree.Below id departure.id := by
  induction levels generalizing id depth with
  | zero => cases h
  | succ levels ih =>
    cases hnode : tree.node? id with
    | none => simp [departuresFrom, hnode] at h
    | some node =>
      rw [departuresFrom_succ hnode, List.mem_append, List.mem_singleton] at h
      rcases h with h | rfl
      · split at h
        · obtain ⟨child, hc, h⟩ := List.mem_flatMap.mp h
          rw [← children_of_node? hnode] at hc
          exact (ih h).of_parent ((hwf.linked id child).mp hc)
        · cases h
      · exact .refl

/-- A node is left after all that is below it. -/
theorem pairwise_departuresFrom (hwf : tree.WellFormed) :
    (tree.departuresFrom log levels depth id).Pairwise fun first second =>
      ¬ tree.Below first.id second.id := by
  induction levels generalizing id depth with
  | zero => exact List.Pairwise.nil
  | succ levels ih =>
    cases hnode : tree.node? id with
    | none => simp [departuresFrom, hnode]
    | some node =>
      have hparent : ∀ child ∈ node.kind.children, tree.parent? child = some id := by
        intro child hc
        rw [← children_of_node? hnode] at hc
        exact (hwf.linked id child).mp hc
      have hnodup : node.kind.children.Nodup := children_of_node? hnode ▸ hwf.nodup id
      rw [departuresFrom_succ hnode]
      refine List.pairwise_append.mpr ⟨?_, List.pairwise_singleton _ _, ?_⟩
      · split
        · refine List.pairwise_flatMap.mpr ⟨fun child _ => ih, ?_⟩
          refine hnodup.imp_of_mem fun {one other} hone hother hne first hf second hs hbelow => ?_
          exact Below.not_sibling hwf (hparent other hother) (hparent one hone) (Ne.symm hne)
            (below_of_mem_departuresFrom hwf hs)
            (hbelow.trans (below_of_mem_departuresFrom hwf hf))
        · exact List.Pairwise.nil
      · intro first hf last hl hbelow
        obtain rfl := List.mem_singleton.mp hl
        split at hf
        · obtain ⟨child, hc, hf⟩ := List.mem_flatMap.mp hf
          exact Below.not_parent hwf (hparent child hc)
            (hbelow.trans (below_of_mem_departuresFrom hwf hf))
        · cases hf

theorem depth_le_of_mem_departuresFrom (h : departure ∈ tree.departuresFrom log levels depth id) :
    depth ≤ departure.depth := by
  induction levels generalizing id depth with
  | zero => cases h
  | succ levels ih =>
    cases hnode : tree.node? id with
    | none => simp [departuresFrom, hnode] at h
    | some node =>
      rw [departuresFrom_succ hnode, List.mem_append, List.mem_singleton] at h
      rcases h with h | rfl
      · split at h
        · obtain ⟨child, -, h⟩ := List.mem_flatMap.mp h
          exact Nat.le_trans (Nat.le_add_right _ _) (ih h)
        · cases h
      · exact Nat.le_refl _

/-- A block is properly above the node, and at `top` or below it. -/
def BlockBetween (tree : Tree) (top id : NodeId) : Prop :=
  ∃ block node, tree.node? block = some node ∧ node.shape = .block ∧ tree.Below top block ∧
    tree.Below block id ∧ id ≠ block

theorem depth_pos_iff_of_mem_departuresFrom (hwf : tree.WellFormed)
    (h : departure ∈ tree.departuresFrom log levels depth id) :
    0 < departure.depth ↔ 0 < depth ∨ tree.BlockBetween id departure.id := by
  induction levels generalizing id depth with
  | zero => cases h
  | succ levels ih =>
    cases hnode : tree.node? id with
    | none => simp [departuresFrom, hnode] at h
    | some node =>
      rw [departuresFrom_succ hnode, List.mem_append, List.mem_singleton] at h
      rcases h with h | rfl
      · split at h
        · obtain ⟨child, hc, h⟩ := List.mem_flatMap.mp h
          rw [← children_of_node? hnode] at hc
          have hparent := (hwf.linked id child).mp hc
          have hbelow := below_of_mem_departuresFrom hwf h
          have hne : departure.id ≠ id := fun heq => Below.not_parent hwf hparent (heq ▸ hbelow)
          rw [ih h]
          constructor
          · rintro (hpos | ⟨block, inner, hinner, hblock, htop, hbelow, hne⟩)
            · by_cases hshape : node.shape = .block
              · exact .inr ⟨id, node, hnode, hshape, .refl, hbelow.of_parent hparent, hne⟩
              · rw [if_neg hshape] at hpos
                exact .inl hpos
            · exact .inr ⟨block, inner, hinner, hblock, htop.of_parent hparent, hbelow, hne⟩
          · rintro (hpos | ⟨block, inner, hinner, hblock, htop, hbelow', hne'⟩)
            · exact .inl (Nat.lt_of_lt_of_le hpos (Nat.le_add_right _ _))
            · by_cases heq : block = id
              · rw [heq, hnode] at hinner
                obtain rfl := Option.some.inj hinner
                rw [if_pos hblock]
                exact .inl (Nat.succ_pos _)
              · -- The block is not above the child, so that it is below it.
                refine .inr ⟨block, inner, hinner, hblock, ?_, hbelow', hne'⟩
                rcases hbelow'.total hbelow with hup | hdown
                · by_cases hchild : child = block
                  · exact hchild ▸ .refl
                  · exact absurd ((hup.parent_of_ne hchild hparent).antisymm hwf htop).symm heq
                · exact hdown
        · cases h
      · refine ⟨.inl, ?_⟩
        rintro (hpos | ⟨block, inner, -, -, htop, hbelow, hne⟩)
        · exact hpos
        · exact absurd (hbelow.antisymm hwf htop) hne

/-- Where an edit falls into everything above a node, the walk leaves the node. -/
theorem exists_mem_departuresFrom {other : NodeId} (hwf : tree.WellFormed) (hid : id < tree.size)
    (hfits : tree.Fits levels id) (hother : tree.Below id other)
    (htouched : ∀ above node, tree.Below id above → tree.Below above other → other ≠ above →
      tree.node? above = some node → log.Touches node.span) :
    ∃ departure ∈ tree.departuresFrom log levels depth id, departure.id = other := by
  induction levels generalizing id depth with
  | zero => exact hfits.elim
  | succ levels ih =>
    obtain ⟨node, hnode⟩ := node?_of_lt_size hid
    rw [departuresFrom_succ hnode]
    by_cases heq : other = id
    · exact ⟨⟨id, depth⟩, List.mem_append_right _ List.mem_cons_self, heq.symm⟩
    · rcases Relation.ReflTransGen.cases_tail hother with heq' | ⟨child, hchild, hparent⟩
      · exact absurd heq'.symm heq
      · have hmem := (hwf.linked id child).mpr hparent
        obtain ⟨departure, hd, hid'⟩ := ih (hwf.child_lt_size hmem) (hfits child hmem) hchild
          fun above node ha => htouched above node (ha.of_parent hparent)
        rw [if_pos (.inr (htouched id node .refl hother heq hnode))]
        rw [children_of_node? hnode] at hmem
        exact ⟨departure, List.mem_append_left _ (List.mem_flatMap.mpr ⟨child, hmem, hd⟩), hid'⟩

/-- The first of two nodes lies in a block, and the second, which comes next, does not. -/
def Resurfaces (first second : Departure) : Prop := 0 < first.depth ∧ second.depth = 0

theorem getLast?_departuresFrom {last : Departure}
    (h : last ∈ (tree.departuresFrom log levels depth id).getLast?) : last.depth = depth := by
  cases levels with
  | zero => cases h
  | succ levels =>
    cases hnode : tree.node? id with
    | none => simp [departuresFrom, hnode] at h
    | some node =>
      rw [departuresFrom_succ hnode, List.getLast?_append] at h
      cases h
      rfl

/-- Only leaving a block leads out of all blocks. -/
theorem isChain_departuresFrom : (tree.departuresFrom log levels depth id).IsChain
    fun first second => Resurfaces first second →
      ∃ node, tree.node? second.id = some node ∧ node.shape = .block := by
  induction levels generalizing id depth with
  | zero => exact List.IsChain.nil
  | succ levels ih =>
    cases hnode : tree.node? id with
    | none => simp [departuresFrom, hnode]
    | some node =>
      let inner := depth + if node.shape = .block then 1 else 0
      have hchildren (ids : List NodeId) :
          (ids.flatMap (tree.departuresFrom log levels inner)).IsChain
            (fun first second => Resurfaces first second →
              ∃ node, tree.node? second.id = some node ∧ node.shape = .block) ∧
          ∀ last ∈ (ids.flatMap (tree.departuresFrom log levels inner)).getLast?,
            last.depth = inner := by
        induction ids with
        | nil => exact ⟨List.IsChain.nil, fun _ h => nomatch h⟩
        | cons child ids ih' =>
          obtain ⟨hchain, hlast⟩ := ih'
          rw [List.flatMap_cons]
          refine ⟨List.isChain_append.mpr ⟨ih, hchain, fun first hf second hs hout => ?_⟩,
            fun last hl => ?_⟩
          · -- Siblings have the same blocks around them.
            obtain ⟨child', -, hmem⟩ := List.mem_flatMap.mp (List.mem_of_mem_head? hs)
            have hle := depth_le_of_mem_departuresFrom hmem
            have hpos := hout.1
            rw [getLast?_departuresFrom hf] at hpos
            exact absurd hout.2 (by omega)
          · rw [List.getLast?_append, Option.mem_def, Option.or_eq_some_iff] at hl
            rcases hl with hl | ⟨-, hl⟩
            · exact hlast last hl
            · exact getLast?_departuresFrom hl
      rw [departuresFrom_succ hnode]
      split
      · obtain ⟨hchain, hlast⟩ := hchildren node.kind.children
        refine List.isChain_append.mpr ⟨hchain, List.isChain_singleton _,
          fun first hf second hs hout => ?_⟩
        cases hs
        have hpos := hout.1
        have hdepth : depth = 0 := hout.2
        rw [hlast first hf] at hpos
        by_cases hshape : node.shape = .block
        · exact ⟨node, hnode, hshape⟩
        · simp only [inner, if_neg hshape, hdepth] at hpos
          cases hpos
      · exact List.isChain_singleton _

/-- The walk over the whole tree starts at its root, outside of blocks. -/
theorem departures_of_root {root : NodeId} (hroot : tree.root = some root) :
    tree.departures log = tree.departuresFrom log (tree.size + 1) 0 root := by
  simp [departures, hroot]

theorem exists_root_of_mem_departures (h : departure ∈ tree.departures log) :
    ∃ root, tree.root = some root ∧
      departure ∈ tree.departuresFrom log (tree.size + 1) 0 root := by
  obtain ⟨root, hroot, h⟩ := List.mem_flatMap.mp h
  exact ⟨root, Option.mem_toList.mp hroot, h⟩

/-- The number of blocks around a node tells whether it lies in one. -/
theorem depth_pos_iff_of_mem_departures (hwf : tree.WellFormed)
    (h : departure ∈ tree.departures log) : 0 < departure.depth ↔
      ∃ root, tree.root = some root ∧ tree.BlockBetween root departure.id := by
  obtain ⟨root, hroot, h⟩ := exists_root_of_mem_departures h
  rw [depth_pos_iff_of_mem_departuresFrom hwf h]
  constructor
  · intro hblock
    exact ⟨root, hroot, hblock.resolve_left (Nat.lt_irrefl 0)⟩
  · rintro ⟨other, hother, hblock⟩
    obtain rfl := Option.some.inj (hroot.symm.trans hother)
    exact .inr hblock

theorem lt_size_of_mem_departures (hwf : tree.WellFormed) (hroot : ∀ id ∈ tree.root, id < tree.size)
    (h : departure ∈ tree.departures log) : departure.id < tree.size := by
  obtain ⟨root, hr, h⟩ := exists_root_of_mem_departures h
  exact (below_of_mem_departuresFrom hwf h).lt_size (hroot root hr)

theorem pairwise_departures (hwf : tree.WellFormed) (log : EditLog) :
    (tree.departures log).Pairwise fun first second => ¬ tree.Below first.id second.id := by
  cases hroot : tree.root with
  | none => simp [departures, hroot]
  | some root =>
    rw [departures_of_root hroot]
    exact pairwise_departuresFrom hwf

theorem isChain_departures (tree : Tree) (log : EditLog) : (tree.departures log).IsChain
    fun first second => Resurfaces first second →
      ∃ node, tree.node? second.id = some node ∧ node.shape = .block := by
  cases hroot : tree.root with
  | none => simp [departures, hroot]
  | some root =>
    rw [departures_of_root hroot]
    exact isChain_departuresFrom

end Order
end Tree

namespace Attribution
variable {tree tree' : Tree} {log : EditLog} {id : NodeId} {levels depth : Nat} {node : Node}
  {state : Attribution} {diagnostics : List Diagnostic}

/-- Leaves a node with so many blocks open around it. -/
def depart (reached : Tree × Attribution) (departure : Departure) :
    Option (Tree × Attribution) := do
  let node ← reached.1.node? departure.id
  leave reached.1 departure.id
    { reached.2 with depth := departure.depth + if node.shape = .block then 1 else 0 }

theorem depart_eq {departure : Departure} (hnode : tree.node? departure.id = some node) :
    depart (tree, state) departure = leave tree departure.id
      { state with depth := departure.depth + if node.shape = .block then 1 else 0 } := by
  simp only [depart, hnode, Option.bind_eq_bind, Option.bind_some]

/-- The nodes to leave say how many blocks are open. -/
theorem foldlM_depart_depth (depth : Nat) (before : List Departure) (last : Departure) :
    (before ++ [last]).foldlM depart (tree, { state with depth }) =
      (before ++ [last]).foldlM depart (tree, state) := by
  cases before with
  | nil => rfl
  | cons first rest => rfl

/-- A walk over `id` at which the tree and the state are as given, and the list of departures, both
come to the same. -/
def Retraces (log : EditLog) (levels depth : Nat) (id : NodeId) (tree : Tree)
    (state : Attribution) : Prop :=
  ∃ tree' state', Tree.walkFrom visitor levels id (tree, state) = some (tree', state') ∧
    (tree.departuresFrom log levels depth id).foldlM depart (tree, state) = some (tree', state') ∧
    Tree.ChangedBelow id tree tree' ∧ Serves log tree' state' ∧ state'.depth = depth

/-- Children over which a walk goes one after the other. -/
theorem foldlM_retraces {ids : List NodeId} (hwf : tree.WellFormed) (hnodup : ids.Nodup)
    (hwalk : ∀ {tree : Tree} {child : NodeId} {state : Attribution}, tree.WellFormed →
      child < tree.size → tree.Fits levels child → Serves log tree state → state.depth = depth →
      Retraces log levels depth child tree state)
    (hids : ∀ child ∈ ids, tree.parent? child = some id ∧ tree.Fits levels child)
    (h : Serves log tree state) (hdepth : state.depth = depth) : ∃ tree' state',
      ids.foldlM (fun reached child => Tree.walkFrom visitor levels child reached) (tree, state) =
        some (tree', state') ∧
      (ids.flatMap (tree.departuresFrom log levels depth)).foldlM depart (tree, state) =
        some (tree', state') ∧
      Tree.ChangedBelow id tree tree' ∧ tree'.skeleton id = tree.skeleton id ∧
      Serves log tree' state' ∧ state'.depth = depth := by
  induction ids generalizing tree state with
  | nil => exact ⟨tree, state, rfl, rfl, .refl hwf, rfl, h, hdepth⟩
  | cons child ids ih =>
    obtain ⟨hnot, hnodup⟩ := List.nodup_cons.mp hnodup
    obtain ⟨⟨hparent, hfits⟩, hids⟩ := List.forall_mem_cons.mp hids
    obtain ⟨next, reached, hwalked, hdeparted, hchanged, hserves, hd⟩ :=
      hwalk hwf (Tree.lt_size_of_parent? hparent) hfits h hdepth
    have hsame : ∀ other ∈ ids, ∀ x, tree.Below other x → next.skeleton x = tree.skeleton x := by
      intro other ho x hx
      exact hchanged.sibling hwf hparent (hids other ho).1 (fun heq => hnot (heq ▸ ho)) hx
    have hrest : ∀ other ∈ ids, next.parent? other = some id ∧ next.Fits levels other := by
      intro other ho
      obtain ⟨hp, hf⟩ := hids other ho
      refine ⟨?_, hf.congr hwf fun x hx => Tree.children_congr (hsame other ho x hx)⟩
      rw [Tree.parent?_congr (hsame other ho other .refl)]
      exact hp
    have horder : ids.flatMap (next.departuresFrom log levels depth) =
        ids.flatMap (tree.departuresFrom log levels depth) :=
      List.flatMap_congr fun other ho => Tree.departuresFrom_congr hwf
        (Tree.lt_size_of_parent? (hids other ho).1) (hsame other ho)
    have hid : next.skeleton id = tree.skeleton id :=
      hchanged.skeleton_eq id (hwf.parent_lt_size hparent) (Tree.Below.not_parent hwf hparent)
    obtain ⟨last, state', hlast, hlast', hchanged', hid', hserves', hd'⟩ :=
      ih hchanged.wellFormed hnodup hrest hserves hd
    refine ⟨last, state', ?_, ?_, (hchanged.of_child hwf hparent).trans hwf hchanged',
      hid'.trans hid, hserves', hd'⟩
    · rw [List.foldlM_cons, hwalked]
      exact hlast
    · rw [List.flatMap_cons, List.foldlM_append, hdeparted, ← horder]
      exact hlast'

theorem walkFrom_retraces (hwf : tree.WellFormed) (hid : id < tree.size)
    (hfits : tree.Fits levels id) (h : Serves log tree state) (hdepth : state.depth = depth) :
    Retraces log levels depth id tree state := by
  induction levels generalizing tree id state depth with
  | zero => exact hfits.elim
  | succ levels ih =>
    obtain ⟨node, hnode⟩ := Tree.node?_of_lt_size hid
    let inner := depth + if node.shape = .block then 1 else 0
    have hentered : visitor.enter tree id state =
        some (decide (depth = 0 ∨ log.Touches node.span), { state with depth := inner }) := by
      subst hdepth
      exact enter_eq hnode h
    have hserves : Serves log tree { state with depth := inner } := h.withDepth _
    -- Leaving the node itself, from whatever its children have left it in.
    have hleave {next : Tree} {reached : Attribution} (hchanged : Tree.ChangedBelow id tree next)
        (hskeleton : next.skeleton id = tree.skeleton id) (hserves : Serves log next reached)
        (hd : reached.depth = inner) : ∃ tree' state',
          visitor.leave next id reached = some (tree', state') ∧
          depart (next, reached) ⟨id, depth⟩ = some (tree', state') ∧
          Tree.ChangedBelow id tree tree' ∧ Serves log tree' state' ∧ state'.depth = depth := by
      obtain ⟨node', hnode', hkind, -⟩ := Tree.node?_congr_skeleton hskeleton hnode
      have hshape : node'.shape = node.shape := congrArg NodeKind.shape hkind
      obtain ⟨marked, state', tree', hleaves, hleft, -, hchanged', hserves'⟩ :=
        leave_spec hchanged.wellFormed hnode' hserves
      have hreached : { reached with depth := depth + if node'.shape = .block then 1 else 0 } =
          reached := by
        rw [hshape,
          show depth + (if node.shape = .block then 1 else 0) = reached.depth from hd.symm]
      refine ⟨tree', state', hleft, ?_, hchanged.trans hwf hchanged', hserves', ?_⟩
      · rw [depart_eq hnode', hreached]
        exact hleft
      · rw [hleaves.depth_eq, hd, hshape]
        exact Nat.add_sub_cancel _ _
    have hchildren : ∀ child ∈ node.kind.children,
        tree.parent? child = some id ∧ tree.Fits levels child := by
      intro child hc
      rw [← Tree.children_of_node? hnode] at hc
      exact ⟨(hwf.linked id child).mp hc, hfits child hc⟩
    by_cases hdescend : depth = 0 ∨ log.Touches node.span
    · have hnodup : node.kind.children.Nodup := Tree.children_of_node? hnode ▸ hwf.nodup id
      obtain ⟨next, reached, hwalked, hdeparted, hchanged, hskeleton, hserves, hd⟩ :=
        foldlM_retraces hwf hnodup ih hchildren hserves rfl
      obtain ⟨tree', state', hleft, hdepart, hchanged', hserves', hd'⟩ :=
        hleave hchanged hskeleton hserves hd
      refine ⟨tree', state', ?_, ?_, hchanged', hserves', hd'⟩
      · simp only [Tree.walkFrom, hentered, hdescend, decide_true, Option.bind_eq_bind,
          Option.bind_some, if_true, hnode, hwalked]
        exact hleft
      · rw [Tree.departuresFrom_succ hnode, if_pos hdescend, ← foldlM_depart_depth inner,
          List.foldlM_append, hdeparted, Option.bind_eq_bind, Option.bind_some, List.foldlM_cons,
          hdepart]
        rfl
    · obtain ⟨tree', state', hleft, hdepart, hchanged', hserves', hd'⟩ :=
        hleave (.refl hwf) rfl hserves rfl
      refine ⟨tree', state', ?_, ?_, hchanged', hserves', hd'⟩
      · simp only [Tree.walkFrom, hentered, hdescend, decide_false, Option.bind_eq_bind,
          Option.bind_some, Bool.false_eq_true, if_false]
        exact hleft
      · rw [Tree.departuresFrom_succ hnode, if_neg hdescend, ← foldlM_depart_depth inner,
          List.nil_append, List.foldlM_cons, hdepart]
        rfl

/-- Where a walk over `tree` is when it has left the nodes of the list. Nodes that are not below
these are what they were but for flags. -/
structure Reached (log : EditLog) (tree : Tree) (left : List Departure) (tree' : Tree)
    (state : Attribution) : Prop where
  wellFormed : tree'.WellFormed
  root_eq : tree'.root = tree.root
  size_le : tree.size ≤ tree'.size
  skeleton_eq : ∀ other < tree.size, (∀ departure ∈ left, ¬ tree.Below departure.id other) →
    tree'.skeleton other = tree.skeleton other
  serves : Serves log tree' state

namespace Reached
variable {left : List Departure} {departure : Departure}

theorem start (hwf : tree.WellFormed) : Reached log tree [] tree (.start log diagnostics) where
  wellFormed := hwf
  root_eq := rfl
  size_le := Nat.le_refl _
  skeleton_eq _ _ _ := rfl
  serves := .start

/-- A node that is next to be left is what it was but for flags. -/
theorem node?_eq (h : Reached log tree left tree' state)
    (hnext : ∀ first ∈ left, ¬ tree.Below first.id departure.id)
    (hnode : tree.node? departure.id = some node) : ∃ node', tree'.node? departure.id = some node' ∧
      node'.kind = node.kind ∧ node'.span = node.span :=
  Tree.node?_congr_skeleton (h.skeleton_eq _ (Tree.lt_size_of_node? hnode) hnext) hnode

/-- What is below a node when it is left was below it from the start. -/
theorem below (h : Reached log tree left tree' state) (hwf : tree.WellFormed) {other : NodeId}
    (hother : other < tree.size) (hout : ∀ first ∈ left, ¬ tree.Below first.id other)
    (hbelow : tree'.Below id other) : tree.Below id other := by
  induction hbelow using Relation.ReflTransGen.head_induction_on with
  | refl => exact .refl
  | @head child parent hp _ ih =>
    have hp' : tree.parent? child = some parent := by
      rw [← Tree.parent?_congr (h.skeleton_eq child hother hout)]
      exact hp
    refine .step hp' (ih (hwf.parent_lt_size hp') fun first hf hbelow => hout first hf ?_)
    exact .step hp' hbelow

theorem depart (h : Reached log tree left tree' state) (hwf : tree.WellFormed)
    (hdeparture : departure.id < tree.size) : ∃ tree'' state',
      depart (tree', state) departure = some (tree'', state') ∧
      Reached log tree (left ++ [departure]) tree'' state' := by
  obtain ⟨node, hnode⟩ := Tree.node?_of_lt_size (Nat.lt_of_lt_of_le hdeparture h.size_le)
  obtain ⟨marked, state', tree'', -, hleave, -, hchanged, hserves⟩ :=
    leave_spec h.wellFormed hnode (h.serves.withDepth _)
  refine ⟨tree'', state', (depart_eq hnode).trans hleave, hchanged.wellFormed,
    hchanged.root_eq.trans h.root_eq, Nat.le_trans h.size_le hchanged.size_le,
    fun other ho hout => ?_, hserves⟩
  obtain ⟨hout, hlast⟩ := List.forall_mem_append.mp hout
  refine (hchanged.skeleton_eq other (Nat.lt_of_lt_of_le ho h.size_le) fun hbelow => ?_).trans
    (h.skeleton_eq other ho hout)
  exact hlast departure List.mem_cons_self (h.below hwf ho hout hbelow)

/-- What leaving the next node does, as flags and a repair. -/
theorem leaves {tree'' : Tree} {state' : Attribution} (h : Reached log tree left tree' state)
    (hdepart : Attribution.depart (tree', state) departure = some (tree'', state')) :
    ∃ node marked,
      tree'.node? departure.id = some node ∧
      Leaves tree' departure.id node
        { state with depth := departure.depth + if node.shape = .block then 1 else 0 }
        marked state' ∧
      (tree'.markAll marked).repair departure.id node.shape state'.InBody = some tree'' := by
  cases hnode : tree'.node? departure.id with
  | none => simp [Attribution.depart, hnode] at hdepart
  | some node =>
    obtain ⟨marked, reached, next, hleaves, hleave, hrepair, -⟩ :=
      leave_spec h.wellFormed hnode (h.serves.withDepth _)
    rw [depart_eq hnode, hleave] at hdepart
    obtain ⟨rfl, rfl⟩ := Prod.mk.inj (Option.some.inj hdepart)
    exact ⟨node, marked, rfl, hleaves, hrepair⟩

theorem keeps {tree'' : Tree} {state' : Attribution} (h : Reached log tree left tree' state)
    (hdepart : Attribution.depart (tree', state) departure = some (tree'', state')) :
    tree'.Keeps tree'' := by
  obtain ⟨node, -, hnode, -⟩ := h.leaves hdepart
  rw [depart_eq hnode] at hdepart
  exact keeps_of_leave h.wellFormed hnode (h.serves.withDepth _) hdepart

end Reached

/-- What holds at the start of a walk, and is kept whenever a node is left, holds at its end. -/
theorem foldlM_depart_induction {motive : List Departure → Tree → Attribution → Prop}
    (hwf : tree.WellFormed) (hroot : ∀ id ∈ tree.root, id < tree.size)
    (hstart : motive [] tree (.start log diagnostics))
    (hstep : ∀ {left departure rest tree' state tree'' state'},
      tree.departures log = left ++ departure :: rest → Reached log tree left tree' state →
      motive left tree' state → depart (tree', state) departure = some (tree'', state') →
      motive (left ++ [departure]) tree'' state') : ∃ tree' state,
      (tree.departures log).foldlM depart (tree, .start log diagnostics) = some (tree', state) ∧
      Reached log tree (tree.departures log) tree' state ∧
      motive (tree.departures log) tree' state := by
  suffices h : ∀ rest left, tree.departures log = left ++ rest → ∀ {tree' state},
      Reached log tree left tree' state → motive left tree' state → ∃ tree'' state',
        rest.foldlM depart (tree', state) = some (tree'', state') ∧
        Reached log tree (tree.departures log) tree'' state' ∧
        motive (tree.departures log) tree'' state' from
    h _ [] rfl (.start hwf) hstart
  intro rest
  induction rest with
  | nil =>
    intro left hsplit tree' state hreached hmotive
    rw [List.append_nil] at hsplit
    exact ⟨tree', state, rfl, hsplit ▸ hreached, hsplit ▸ hmotive⟩
  | cons departure rest ih =>
    intro left hsplit tree' state hreached hmotive
    have hmem : departure ∈ tree.departures log :=
      hsplit ▸ List.mem_append_right _ List.mem_cons_self
    obtain ⟨next, reached, hdepart, hreached'⟩ :=
      hreached.depart hwf (Tree.lt_size_of_mem_departures hwf hroot hmem)
    obtain ⟨tree'', state', hrest, hend⟩ := ih (left ++ [departure])
      (by rw [hsplit, List.append_assoc, List.singleton_append]) hreached'
      (hstep hsplit hreached hmotive hdepart)
    refine ⟨tree'', state', ?_, hend⟩
    rw [List.foldlM_cons, hdepart]
    exact hrest

end Attribution

/-- Propagation leaves the nodes of the tree in their order. -/
theorem propagate_eq_foldlM {tree : Tree} (hwf : tree.WellFormed)
    (hroot : ∀ id ∈ tree.root, id < tree.size) (diagnostics : List Diagnostic) (log : EditLog) :
    propagate tree diagnostics log =
      ((tree.departures log).foldlM Attribution.depart (tree, .start log diagnostics)).map
        fun reached => (reached.1, reached.2.concerns.map (·.diagnostic)) := by
  cases hstart : tree.root with
  | none =>
    have hconcerns :
        (Attribution.start log diagnostics).concerns.map (·.diagnostic) = diagnostics := by
      rw [Attribution.start, List.map_map]
      exact List.map_id _
    simp only [propagate, hstart, Tree.departures, Option.toList_none, List.flatMap_nil,
      List.foldlM_nil]
    exact congrArg (fun diagnostics => some (tree, diagnostics)) hconcerns.symm
  | some root =>
    have hfits : tree.Fits (tree.size + 1) root := hwf.fits (by omega)
    have hwalk : Attribution.Retraces log (tree.size + 1) 0 root tree (.start log diagnostics) :=
      Attribution.walkFrom_retraces hwf (hroot root hstart) hfits .start rfl
    obtain ⟨tree', state, hwalked, hdeparted, -⟩ := hwalk
    simp only [propagate, hstart, Tree.walk, hwalked, Tree.departures_of_root hstart, hdeparted]
    rfl

/-- Propagation over a tree with links in order comes to an end. -/
theorem exists_propagate {tree : Tree} (hwf : tree.WellFormed)
    (hroot : ∀ id ∈ tree.root, id < tree.size) (diagnostics : List Diagnostic) (log : EditLog) :
    ∃ tree' diagnostics', propagate tree diagnostics log = some (tree', diagnostics') := by
  have hrun : ∃ tree' state, (tree.departures log).foldlM Attribution.depart
      (tree, .start log diagnostics) = some (tree', state) ∧
        Attribution.Reached log tree (tree.departures log) tree' state ∧ True :=
    Attribution.foldlM_depart_induction (motive := fun _ _ _ => True) hwf hroot trivial
      fun _ _ _ _ => trivial
  obtain ⟨tree', state, hrun, -⟩ := hrun
  refine ⟨tree', state.concerns.map (·.diagnostic), ?_⟩
  rw [propagate_eq_foldlM hwf hroot, hrun]
  rfl

end SyntaxRecovery
