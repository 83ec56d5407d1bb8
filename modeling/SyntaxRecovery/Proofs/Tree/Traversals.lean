import SyntaxRecovery.Proofs.Tree.Events
import SyntaxRecovery.Proofs.Tree.Root

/-! Ways over a tree that come to the same. A loop with a stack of nodes meets the nodes in the
order in which a recursion does, and in which a walk enters them that goes below every node. -/
namespace SyntaxRecovery

namespace Stack
variable {α β : Type}

/-- Puts items on a stack, one after the other. The top comes first. -/
def push (stack items : List α) : List α := items.foldl (fun stack item => item :: stack) stack

theorem push_reverse (stack items : List α) : push stack items.reverse = items ++ stack := by
  simp [push]

/-- Takes the item on top of the stack and puts what is below it in its place, the last first, until
the stack is empty. The items come out in this order; none where there are more than `rounds`. -/
def drain (below : α → List α) : (rounds : Nat) → List α → Option (List α)
  | _, [] => some []
  | 0, _ :: _ => none
  | rounds + 1, top :: rest =>
    (drain below rounds (push rest (below top).reverse)).map (top :: ·)

theorem drain_mono {below : α → List α} {rounds rounds' : Nat} {stack items : List α}
    (h : drain below rounds stack = some items) (hle : rounds ≤ rounds') :
    drain below rounds' stack = some items := by
  induction rounds generalizing rounds' stack items with
  | zero =>
    cases stack with
    | nil => cases rounds' <;> exact h
    | cons top rest => cases h
  | succ rounds ih =>
    cases stack with
    | nil => cases rounds' <;> exact h
    | cons top rest =>
      obtain ⟨more, rfl⟩ := Nat.exists_eq_add_of_le' (Nat.le_trans (Nat.succ_pos rounds) hle)
      obtain ⟨out, hout, rfl⟩ := Option.map_eq_some_iff.mp h
      rw [drain, ih hout (Nat.le_of_succ_le_succ hle)]
      rfl

/-- Stacks of the same shape are drained in the same order. -/
theorem drain_map {below : α → List α} {below' : β → List β} {f : α → β}
    (hbelow : ∀ item, below' (f item) = (below item).map f) (rounds : Nat) (stack : List α) :
    drain below' rounds (stack.map f) = (drain below rounds stack).map (·.map f) := by
  induction rounds generalizing stack with
  | zero => cases stack <;> rfl
  | succ rounds ih =>
    cases stack with
    | nil => rfl
    | cons top rest =>
      have hnext : push (rest.map f) (below' (f top)).reverse =
          (push rest (below top).reverse).map f := by
        rw [push_reverse, push_reverse, hbelow, List.map_append]
      rw [List.map_cons, drain, hnext, ih, drain, Option.map_map, Option.map_map]
      rfl

end Stack

/-- The visitor goes below every node of the tree and changes nothing in it. -/
structure Visitor.Surveys {σ : Type} (visitor : Visitor σ) (tree : Tree) : Prop where
  enter : ∀ id < tree.size, ∀ state, ∃ state', visitor.enter tree id state = some (true, state')
  leave : ∀ id < tree.size, ∀ state, ∃ state', visitor.leave tree id state = some (tree, state')

namespace Tree
variable {tree : Tree} {id top root : NodeId} {depth level : Nat}

/-- A child, one level further down. -/
def levelled (tree : Tree) (item : NodeId × Nat) : List (NodeId × Nat) :=
  (tree.children item.1).map (·, item.2 + 1)

/-- Nodes side by side on a stack. -/
theorem drain_map_outlineFrom {ids : List NodeId} (level : Nat)
    (hnode : ∀ id ∈ ids, ∀ rounds rest,
      Stack.drain tree.levelled ((tree.outlineFrom depth level id).length + rounds)
        ((id, level) :: rest) =
      (Stack.drain tree.levelled rounds rest).map (tree.outlineFrom depth level id ++ ·))
    (rounds : Nat) (rest : List (NodeId × Nat)) :
    Stack.drain tree.levelled ((ids.flatMap (tree.outlineFrom depth level)).length + rounds)
        (ids.map (·, level) ++ rest) =
      (Stack.drain tree.levelled rounds rest).map
        (ids.flatMap (tree.outlineFrom depth level) ++ ·) := by
  induction ids with
  | nil => simp
  | cons id ids ih =>
    obtain ⟨hid, hids⟩ := List.forall_mem_cons.mp hnode
    rw [List.flatMap_cons, List.length_append, Nat.add_assoc, List.map_cons, List.cons_append, hid,
      ih hids, Option.map_map]
    simp [Function.comp_def, List.append_assoc]

/-- A node on top of the stack gives way to all that is below it before the rest comes out. -/
theorem drain_outlineFrom (level : Nat) (hfits : tree.Fits depth id) (rounds : Nat)
    (rest : List (NodeId × Nat)) :
    Stack.drain tree.levelled ((tree.outlineFrom depth level id).length + rounds)
        ((id, level) :: rest) =
      (Stack.drain tree.levelled rounds rest).map (tree.outlineFrom depth level id ++ ·) := by
  induction depth generalizing id level rounds rest with
  | zero => exact hfits.elim
  | succ depth ih =>
    have hchildren := drain_map_outlineFrom (level + 1)
      (fun child hc => ih (level + 1) (hfits child hc)) rounds rest
    rw [outlineFrom, List.length_cons, Nat.add_right_comm, Stack.drain, Stack.push_reverse,
      levelled, hchildren, Option.map_map]
    rfl

/-- Nothing is below two of the nodes. -/
def Apart (tree : Tree) (ids : List NodeId) : Prop :=
  ids.Pairwise fun one other => ∀ id, tree.Below one id → ¬ tree.Below other id

section Outline
variable (hwf : tree.WellFormed)
include hwf

theorem apart_children (top : NodeId) : tree.Apart (tree.children top) := by
  refine (hwf.nodup top).imp_of_mem fun {one other} hone hother hne id hid => ?_
  exact Below.not_sibling hwf ((hwf.linked top one).mp hone) ((hwf.linked top other).mp hother) hne
    hid

/-- The children that a walk goes to are apart too, if it goes to any. -/
theorem apart_descended (top : NodeId) (descend : Bool) :
    tree.Apart (if descend then tree.children top else []) ∧
      ∀ child ∈ (if descend then tree.children top else []), tree.parent? child = some top := by
  cases descend with
  | false => exact ⟨List.Pairwise.nil, fun _ hc => (List.not_mem_nil hc).elim⟩
  | true => exact ⟨apart_children hwf top, fun child hc => (hwf.linked top child).mp hc⟩

/-- No node is met twice. -/
theorem nodup_outlineFrom (hfits : tree.Fits depth top) :
    ((tree.outlineFrom depth level top).map (·.1)).Nodup := by
  induction depth generalizing level top with
  | zero => exact hfits.elim
  | succ depth ih =>
    have hparent : ∀ child ∈ tree.children top, tree.parent? child = some top :=
      fun child hc => (hwf.linked top child).mp hc
    rw [outlineFrom, List.map_cons, List.map_flatMap, List.nodup_cons]
    constructor
    · rw [List.mem_flatMap]
      rintro ⟨child, hc, hmem⟩
      exact Below.not_parent hwf (hparent child hc)
        ((mem_outlineFrom_iff hwf (hfits child hc)).mp hmem)
    · refine List.nodup_flatMap.mpr ⟨fun child hc => ih (hfits child hc), ?_⟩
      refine (apart_children hwf top).imp_of_mem fun {one other} hone hother happart id hid hid' =>
        ?_
      exact happart id ((mem_outlineFrom_iff hwf (hfits one hone)).mp hid)
        ((mem_outlineFrom_iff hwf (hfits other hother)).mp hid')

/-- The level of a node is how much longer its way up is. -/
theorem level_outlineFrom {item : NodeId × Nat} (h : item ∈ tree.outlineFrom depth level top) :
    item.2 + (tree.ancestors top).length = level + (tree.ancestors item.1).length := by
  induction depth generalizing level top with
  | zero => cases h
  | succ depth ih =>
    rw [outlineFrom, List.mem_cons, List.mem_flatMap] at h
    rcases h with rfl | ⟨child, hc, hmem⟩
    · rfl
    · have hup := hwf.ancestors_of_parent? ((hwf.linked top child).mp hc)
      have hlevel := ih hmem
      rw [hup, List.length_cons] at hlevel
      omega

theorem isAncestorOrSelf_iff : tree.isAncestorOrSelf top id = true ↔ tree.Below top id := by
  rw [isAncestorOrSelf, Bool.or_eq_true, beq_iff_eq, List.contains_iff_mem, hwf.mem_ancestors_iff,
    Below, Relation.reflTransGen_iff_eq_or_transGen, eq_comm]

/-- The ancestors of a node up to one of them are those that are not above that one. -/
theorem countP_ancestors (h : tree.Below top id) :
    (tree.ancestors id).countP (tree.isAncestorOrSelf top) + (tree.ancestors top).length =
      (tree.ancestors id).length := by
  induction h using Relation.ReflTransGen.head_induction_on with
  | refl =>
    have hnone : (tree.ancestors top).countP (tree.isAncestorOrSelf top) = 0 := by
      refine List.countP_eq_zero.mpr fun above habove hself => ?_
      have hbelow := (isAncestorOrSelf_iff hwf).mp hself
      have hup : tree.Below above top := (hwf.mem_ancestors_iff.mp habove).to_reflTransGen
      exact hwf.not_mem_ancestors top (hbelow.antisymm hwf hup ▸ habove)
    rw [hnone, Nat.zero_add]
  | @head child parent hparent hbelow ih =>
    rw [hwf.ancestors_of_parent? hparent,
      List.countP_cons_of_pos ((isAncestorOrSelf_iff hwf).mpr hbelow), List.length_cons]
    omega

end Outline

section Root
variable (hwf : tree.WellFormed) (hroot : tree.root = some root) (hknown : root < tree.size)
include hwf hroot hknown

omit hroot in
theorem fits_root : tree.Fits tree.size root := hwf.fits_of_lt_size hknown (Nat.le_add_right _ _)

omit hwf hknown in
theorem outline_of_root : tree.outline = tree.outlineFrom tree.size 0 root := by
  simp [outline, hroot]

theorem mem_preorder_iff : id ∈ tree.preorder ↔ tree.Below root id := by
  rw [preorder, outline_of_root hroot, mem_outlineFrom_iff hwf (fits_root hwf hknown)]

theorem nodup_preorder : tree.preorder.Nodup := by
  rw [preorder, outline_of_root hroot]
  exact nodup_outlineFrom hwf (fits_root hwf hknown)

theorem length_outline_le : tree.outline.length ≤ tree.size := by
  have hsub : tree.preorder ⊆ List.range tree.size := fun id hid =>
    List.mem_range.mpr (((mem_preorder_iff hwf hroot hknown).mp hid).lt_size hknown)
  simpa [preorder] using ((nodup_preorder hwf hroot hknown).subperm hsub).length_le

/-- The loop with levels meets the nodes in order. -/
theorem drain_levelled : Stack.drain tree.levelled tree.size [(root, 0)] = some tree.outline := by
  have hdrain := drain_outlineFrom 0 (fits_root hwf hknown) 0 []
  rw [← outline_of_root hroot] at hdrain
  refine Stack.drain_mono (hdrain.trans ?_) (length_outline_le hwf hroot hknown)
  simp [Stack.drain]

/-- The loop without levels ends with the same order. -/
theorem drain_children : Stack.drain tree.children tree.size [root] = some tree.preorder := by
  have hbelow (item : NodeId × Nat) : tree.children item.1 = (tree.levelled item).map (·.1) := by
    simp [levelled, Function.comp_def]
  have hmap := Stack.drain_map hbelow tree.size [(root, 0)]
  rw [drain_levelled hwf hroot hknown] at hmap
  exact hmap

end Root

/-- The node and what is below it, each node after its children, down to `depth` levels. -/
def postorderFrom (tree : Tree) : (depth : Nat) → NodeId → List NodeId
  | 0, _ => []
  | depth + 1, id => (tree.children id).flatMap (tree.postorderFrom depth) ++ [id]

/-- The nodes below the root, each after its children. -/
def postorder (tree : Tree) : List NodeId :=
  tree.root.toList.flatMap (tree.postorderFrom tree.size)

/-- Both orders list the same nodes. -/
theorem postorderFrom_perm (tree : Tree) (depth level : Nat) (id : NodeId) :
    (tree.postorderFrom depth id).Perm ((tree.outlineFrom depth level id).map (·.1)) := by
  induction depth generalizing level id with
  | zero => exact .refl _
  | succ depth ih =>
    rw [postorderFrom, outlineFrom, List.map_cons, List.map_flatMap]
    refine List.perm_append_comm.trans (.cons id ?_)
    exact List.Perm.flatMap_left _ fun child _ => ih (level + 1) child

theorem postorder_perm (tree : Tree) : tree.postorder.Perm tree.preorder := by
  rw [postorder, preorder, outline, List.map_flatMap]
  exact List.Perm.flatMap_left _ fun root _ => postorderFrom_perm tree tree.size 0 root

section Walk
variable {σ : Type} {visitor : Visitor σ} {ids : List NodeId} {start finish : Tree × σ}
  {moments : List (Moment σ)}

/-- A walk that changes nothing enters no node twice, wherever it goes down. -/
theorem Walked.nodup_entered (h : Walked visitor ids start moments finish)
    (hstill : ∀ {tree id state tree' state'},
      visitor.leave tree id state = some (tree', state') → tree' = tree)
    (hwf : start.1.WellFormed) (hids : start.1.Apart ids) : finish.1 = start.1 ∧
      (WalkEvent.entered (moments.map (·.event))).Nodup ∧
      ∀ other ∈ WalkEvent.entered (moments.map (·.event)), ∃ id ∈ ids, start.1.Below id other := by
  induction h with
  | nil => exact ⟨rfl, List.nodup_nil, fun _ hmem => (List.not_mem_nil hmem).elim⟩
  | @node id ids now reached gone _ _ _ _ descend inside after _ _ _ hleave _ ihinside ihafter =>
    obtain ⟨hid, hids⟩ := List.pairwise_cons.mp hids
    obtain ⟨hchildren, hparents⟩ := apart_descended hwf id descend
    obtain ⟨hreached, hinside, hbelow⟩ := ihinside hwf hchildren
    obtain rfl : gone = now := (hstill hleave).trans hreached
    obtain ⟨hfinish, hafter, hbelow'⟩ := ihafter hwf hids
    have hunder : ∀ other ∈ WalkEvent.entered (inside.map (·.event)), ∃ child,
        gone.parent? child = some id ∧ gone.Below child other := by
      intro other ho
      obtain ⟨child, hc, hb⟩ := hbelow other ho
      exact ⟨child, hparents child hc, hb⟩
    simp only [List.cons_append, List.map_cons, List.map_append, WalkEvent.entered,
      WalkEvent.entered_append]
    refine ⟨hfinish, List.nodup_cons.mpr ⟨fun hmem => ?_, List.nodup_append.mpr
      ⟨hinside, hafter, fun one hone other hother heq => ?_⟩⟩, fun other ho => ?_⟩
    · rcases List.mem_append.mp hmem with hmem | hmem
      · obtain ⟨child, hparent, hb⟩ := hunder id hmem
        exact Below.not_parent hwf hparent hb
      · obtain ⟨next, hnext, hb⟩ := hbelow' id hmem
        exact hid next hnext id .refl hb
    · obtain ⟨child, hparent, hb⟩ := hunder one hone
      obtain ⟨next, hnext, hb'⟩ := hbelow' other hother
      exact hid next hnext one (hb.of_parent hparent) (heq ▸ hb')
    · rcases List.mem_cons.mp ho with rfl | ho
      · exact ⟨other, List.mem_cons_self, .refl⟩
      · rcases List.mem_append.mp ho with ho | ho
        · obtain ⟨child, hparent, hb⟩ := hunder other ho
          exact ⟨id, List.mem_cons_self, hb.of_parent hparent⟩
        · obtain ⟨next, hnext, hb⟩ := hbelow' other ho
          exact ⟨next, List.mem_cons_of_mem id hnext, hb⟩

/-- A walk that goes below every node and changes nothing enters the nodes in one order and leaves
them in the other. -/
theorem Walked.of_surveys (level : Nat) (h : Walked visitor ids start moments finish)
    (hvisitor : visitor.Surveys tree) (hwf : tree.WellFormed) (hstart : start.1 = tree)
    (hids : ∀ id ∈ ids, id < tree.size ∧ tree.Fits depth id) : finish.1 = tree ∧
      WalkEvent.entered (moments.map (·.event)) =
        ids.flatMap (fun id => (tree.outlineFrom depth level id).map (·.1)) ∧
      WalkEvent.left (moments.map (·.event)) = ids.flatMap (tree.postorderFrom depth) := by
  induction h generalizing depth level with
  | nil => exact ⟨hstart, rfl, rfl⟩
  | @node id ids now reached gone state entered ready last descend inside after finish henter _
      hleave _ ihinside ihafter =>
    obtain rfl : now = tree := hstart
    obtain ⟨⟨hid, hfits⟩, hids⟩ := List.forall_mem_cons.mp hids
    obtain ⟨state', henter'⟩ := hvisitor.enter id hid state
    obtain ⟨rfl, rfl⟩ := Prod.mk.inj (Option.some.inj (henter.symm.trans henter'))
    cases depth with
    | zero => exact hfits.elim
    | succ depth =>
      obtain ⟨rfl, hentered, hleft⟩ := @ihinside depth (level + 1) rfl fun child hc =>
        ⟨hwf.child_lt_size hc, hfits child hc⟩
      obtain ⟨state', hleave'⟩ := hvisitor.leave id hid ready
      obtain ⟨rfl, rfl⟩ := Prod.mk.inj (Option.some.inj (hleave.symm.trans hleave'))
      obtain ⟨hfinish, hentered', hleft'⟩ := @ihafter (depth + 1) level rfl hids
      refine ⟨hfinish, ?_, ?_⟩
      · simp only [List.cons_append, List.map_cons, List.map_append, WalkEvent.entered,
          WalkEvent.entered_append, hentered, hentered', List.flatMap_cons, outlineFrom,
          List.map_flatMap, if_true]
      · simp only [List.cons_append, List.map_cons, List.map_append, WalkEvent.left,
          WalkEvent.left_append, hleft, hleft', List.flatMap_cons, postorderFrom, if_true,
          List.append_assoc, List.nil_append]

/-- Such a walk comes to its end. From the root it enters the nodes in the order of the outline. -/
theorem walk_of_surveys (hvisitor : visitor.Surveys tree) (hwf : tree.WellFormed)
    (hroot : tree.root = some root) (hknown : root < tree.size) (state : σ) : ∃ state' moments,
      tree.walk visitor root state = some (tree, state') ∧
      tree.walk visitor.recorded root (state, []) = some (tree, state', moments) ∧
      WalkEvent.Nested (moments.map (·.event)) ∧
      WalkEvent.entered (moments.map (·.event)) = tree.preorder ∧
      WalkEvent.left (moments.map (·.event)) = tree.postorder ∧
      tree.postorder.Perm tree.preorder := by
  have hfits : tree.Fits (tree.size + 1) root := hwf.fits (by omega)
  obtain ⟨tree', state', hwalk, -, hsame⟩ : ∃ tree' state',
      walkFrom visitor (tree.size + 1) root (tree, state) = some (tree', state') ∧
        ChangedBelow root tree tree' ∧ tree' = tree := by
    refine walkFrom_total visitor (fun now _ => now = tree) ?_ ?_ hwf hknown hfits rfl
    · rintro _ id state - hid rfl
      obtain ⟨state', henter⟩ := hvisitor.enter id hid state
      exact ⟨true, state', henter, rfl⟩
    · rintro _ id state hwf hid rfl
      obtain ⟨state', hleave⟩ := hvisitor.leave id hid state
      exact ⟨_, state', hleave, .refl hwf, rfl⟩
  obtain rfl : tree' = tree := hsame
  obtain ⟨moments, hwalked, hrecorded⟩ := walk_recorded hwalk
  have hids : ∀ id ∈ [root], id < tree'.size ∧ tree'.Fits tree'.size id := by
    rintro id hid
    rw [List.mem_singleton.mp hid]
    exact ⟨hknown, fits_root hwf hknown⟩
  obtain ⟨-, hentered, hleft⟩ := hwalked.of_surveys 0 hvisitor hwf rfl hids
  refine ⟨state', moments, hwalk, hrecorded, hwalked.nested, ?_, ?_, postorder_perm tree'⟩
  · rw [hentered, preorder, outline_of_root hroot, List.flatMap_singleton]
  · rw [hleft, postorder, hroot, Option.toList_some]

end Walk

end Tree
end SyntaxRecovery
