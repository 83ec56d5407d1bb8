import Mathlib.Data.List.Nodup
import Mathlib.Data.List.Perm.Subperm
import Mathlib.Logic.Relation
import SyntaxRecovery.Proofs.Tree.Slots
import SyntaxRecovery.Tree.Edit

/-! Well-formed trees. Slots and links to parents agree, and every chain of parents comes to an end,
so that going up finds all of it. -/
namespace SyntaxRecovery.Tree
variable {tree tree' : Tree} {id child parent : NodeId} {start : Option NodeId}
    {chain : List NodeId}

/-- A node but for its flags. -/
def skeleton (tree : Tree) (id : NodeId) : Option (NodeKind × Span × Option NodeId) :=
  (tree.node? id).map fun node => (node.kind, node.span, node.parent)

theorem children_eq_skeleton (tree : Tree) (id : NodeId) :
    tree.children id = ((tree.skeleton id).map (·.1.children)).getD [] := by
  simp [children, skeleton, Function.comp_def]

theorem parent?_eq_skeleton (tree : Tree) (id : NodeId) :
    tree.parent? id = (tree.skeleton id).bind (·.2.2) := by
  cases h : tree.node? id <;> simp [parent?, skeleton, h]

theorem children_congr (h : tree'.skeleton id = tree.skeleton id) :
    tree'.children id = tree.children id := by
  rw [children_eq_skeleton, h, ← children_eq_skeleton]

theorem parent?_congr (h : tree'.skeleton id = tree.skeleton id) :
    tree'.parent? id = tree.parent? id := by
  rw [parent?_eq_skeleton, h, ← parent?_eq_skeleton]

theorem children_of_node? {node : Node} (h : tree.node? id = some node) :
    tree.children id = node.kind.children := by
  simp [children, h]

theorem lt_size_of_node? {node : Node} (h : tree.node? id = some node) : id < tree.size := by
  by_contra hlt
  rw [node?_eq_none_iff.mpr (Nat.le_of_not_lt hlt)] at h
  cases h

theorem node?_of_lt_size (h : id < tree.size) : ∃ node, tree.node? id = some node :=
  Option.ne_none_iff_exists'.mp fun hnone => Nat.not_le_of_lt h (node?_eq_none_iff.mp hnone)

theorem eq_of_node? (hroot : tree.root = tree'.root) (h : ∀ id, tree.node? id = tree'.node? id) :
    tree = tree' := by
  obtain ⟨nodes, root⟩ := tree
  obtain ⟨nodes', root'⟩ := tree'
  obtain rfl : root = root' := hroot
  obtain rfl : nodes = nodes' := Array.ext_getElem? h
  rfl

theorem lt_size_of_mem_children (h : child ∈ tree.children id) : id < tree.size := by
  by_contra hlt
  simp [children, node?_eq_none_iff.mpr (Nat.le_of_not_lt hlt)] at h

theorem lt_size_of_parent? (h : tree.parent? id = some parent) : id < tree.size := by
  by_contra hlt
  simp [Tree.parent?, node?_eq_none_iff.mpr (Nat.le_of_not_lt hlt)] at h

/-- The whole way up from `start`, to a node without a parent. -/
inductive Climbs (tree : Tree) : Option NodeId → List NodeId → Prop
  | finish : Climbs tree none []
  | up {id : NodeId} {chain : List NodeId} (rest : Climbs tree (tree.parent? id) chain) :
    Climbs tree (some id) (id :: chain)

namespace Climbs

theorem unique {chain' : List NodeId} (h : tree.Climbs start chain)
    (h' : tree.Climbs start chain') : chain = chain' := by
  induction h generalizing chain' with
  | finish =>
    cases h'
    rfl
  | up rest ih =>
    cases h' with
    | up rest' => rw [ih rest']

/-- From every member the way up goes on with those behind it. -/
theorem tail_of_mem (h : tree.Climbs start chain) (hid : id ∈ chain) :
    ∃ rest, tree.Climbs (tree.parent? id) rest ∧ rest.length < chain.length := by
  induction h with
  | finish => cases hid
  | @up next chain rest ih =>
    rcases List.mem_cons.mp hid with rfl | hid
    · exact ⟨chain, rest, Nat.lt_succ_self _⟩
    · obtain ⟨after, hafter, hlt⟩ := ih hid
      exact ⟨after, hafter, Nat.lt_succ_of_lt hlt⟩

/-- No node is on the way up from its parent. -/
theorem not_mem (h : tree.Climbs (tree.parent? id) chain) : id ∉ chain := by
  intro hid
  obtain ⟨rest, hrest, hlt⟩ := h.tail_of_mem hid
  rw [hrest.unique h] at hlt
  exact Nat.lt_irrefl _ hlt

theorem nodup (h : tree.Climbs start chain) : chain.Nodup := by
  induction h with
  | finish => exact List.nodup_nil
  | up rest ih => exact List.nodup_cons.mpr ⟨rest.not_mem, ih⟩

theorem climb_eq {limit : Nat} (h : tree.Climbs start chain) (hlimit : chain.length ≤ limit) :
    tree.climb limit start = chain := by
  induction h generalizing limit with
  | finish => cases limit <;> rfl
  | @up id chain rest ih =>
    cases limit with
    | zero => cases hlimit
    | succ limit => rw [climb, ih (Nat.le_of_succ_le_succ hlimit)]

/-- The way up has the nodes that one or more steps down lead from to the node. -/
theorem mem_iff (h : tree.Climbs (tree.parent? id) chain) {ancestor : NodeId} : ancestor ∈ chain ↔
    Relation.TransGen (fun child parent => tree.parent? child = some parent) id ancestor := by
  constructor
  · intro hmem
    generalize hs : tree.parent? id = start at h
    induction h generalizing id with
    | finish => cases hmem
    | @up next chain rest ih =>
      rcases List.mem_cons.mp hmem with rfl | hmem
      · exact .single hs
      · exact .head hs (ih hmem rfl)
  · intro hpath
    induction hpath using Relation.TransGen.head_induction_on generalizing chain with
    | single hp =>
      rw [hp] at h
      cases h with
      | up rest => exact List.mem_cons_self
    | head hp _ ih =>
      rw [hp] at h
      cases h with
      | up rest => exact List.mem_cons_of_mem _ (ih rest)

/-- Where each node on the way up keeps its parent or has a way up of its own, there still is
one. -/
theorem reroute (h : tree.Climbs start chain) (hstep : ∀ id ∈ chain,
    tree'.parent? id = tree.parent? id ∨ ∃ rest, tree'.Climbs (tree'.parent? id) rest) :
    ∃ chain', tree'.Climbs start chain' := by
  induction h with
  | finish => exact ⟨[], .finish⟩
  | @up id chain rest ih =>
    obtain ⟨after, hafter⟩ : ∃ rest, tree'.Climbs (tree'.parent? id) rest := by
      rcases hstep id List.mem_cons_self with heq | hrest
      · rw [heq]
        exact ih fun other ho => hstep other (List.mem_cons_of_mem _ ho)
      · exact hrest
    exact ⟨id :: after, .up hafter⟩

end Climbs

/-- Slots and links to parents agree: a node is in one slot of its parent and in no other. And going
up from a node comes to an end. -/
structure WellFormed (tree : Tree) : Prop where
  nodup : ∀ parent, (tree.children parent).Nodup
  linked : ∀ parent child, child ∈ tree.children parent ↔ tree.parent? child = some parent
  rooted : ∀ id, ∃ chain, tree.Climbs (tree.parent? id) chain

theorem wellFormed_empty : ({} : Tree).WellFormed where
  nodup _ := List.nodup_nil
  linked _ _ := by simp [children, parent?, node?]
  rooted _ := ⟨[], .finish⟩

namespace WellFormed

/-- Flags do not matter, nor anything else but slots and links. -/
theorem congr (h : tree.WellFormed) (hchildren : ∀ id, tree'.children id = tree.children id)
    (hparent : ∀ id, tree'.parent? id = tree.parent? id) : tree'.WellFormed where
  nodup parent := by
    rw [hchildren]
    exact h.nodup parent
  linked parent child := by
    rw [hchildren, hparent]
    exact h.linked parent child
  rooted id := by
    obtain ⟨chain, hchain⟩ := h.rooted id
    rw [hparent]
    exact hchain.reroute fun other _ => .inl (hparent other)

theorem congr_skeleton (h : tree.WellFormed) (hs : tree'.skeleton = tree.skeleton) :
    tree'.WellFormed :=
  h.congr (fun _ => children_congr (congrFun hs _)) fun _ => parent?_congr (congrFun hs _)

theorem child_lt_size (h : tree.WellFormed) (hc : child ∈ tree.children parent) :
    child < tree.size :=
  lt_size_of_parent? ((h.linked parent child).mp hc)

theorem parent_lt_size (h : tree.WellFormed) (hp : tree.parent? child = some parent) :
    parent < tree.size :=
  lt_size_of_mem_children ((h.linked parent child).mpr hp)

theorem lt_size_of_climbs (h : tree.WellFormed) (hc : tree.Climbs start chain)
    (hstart : ∀ id ∈ start, id < tree.size) : ∀ id ∈ chain, id < tree.size := by
  induction hc with
  | finish => simp
  | @up id chain rest ih =>
    refine List.forall_mem_cons.mpr ⟨hstart id rfl, ih fun parent hp => ?_⟩
    exact h.parent_lt_size hp

/-- A way up is no longer than the tree has nodes. -/
theorem length_le_size (h : tree.WellFormed) (hc : tree.Climbs start chain)
    (hstart : ∀ id ∈ start, id < tree.size) : chain.length ≤ tree.size := by
  have hsub : chain ⊆ List.range tree.size := fun id hid =>
    List.mem_range.mpr (h.lt_size_of_climbs hc hstart id hid)
  simpa using (hc.nodup.subperm hsub).length_le

/-- The ancestors are the whole way up. -/
theorem climbs_ancestors (h : tree.WellFormed) (id : NodeId) :
    tree.Climbs (tree.parent? id) (tree.ancestors id) := by
  obtain ⟨chain, hc⟩ := h.rooted id
  have hlen := h.length_le_size hc fun parent hp => h.parent_lt_size hp
  rw [ancestors, hc.climb_eq hlen]
  exact hc

theorem not_mem_ancestors (h : tree.WellFormed) (id : NodeId) : id ∉ tree.ancestors id :=
  (h.climbs_ancestors id).not_mem

theorem ancestors_of_parent? (h : tree.WellFormed) (hp : tree.parent? child = some parent) :
    tree.ancestors child = parent :: tree.ancestors parent := by
  have hc := h.climbs_ancestors child
  rw [hp] at hc
  exact hc.unique (.up (h.climbs_ancestors parent))

theorem ancestors_lt_size (h : tree.WellFormed) :
    ∀ ancestor ∈ tree.ancestors id, ancestor < tree.size :=
  h.lt_size_of_climbs (h.climbs_ancestors id) fun _ hp => h.parent_lt_size hp

theorem ne_of_parent? (h : tree.WellFormed) (hp : tree.parent? child = some parent) :
    child ≠ parent := by
  rintro rfl
  have := h.not_mem_ancestors child
  rw [h.ancestors_of_parent? hp] at this
  exact this List.mem_cons_self

/-- The ancestors are the nodes that one or more steps down lead from to the node. -/
theorem mem_ancestors_iff (h : tree.WellFormed) {ancestor : NodeId} : ancestor ∈ tree.ancestors id ↔
    Relation.TransGen (fun child parent => tree.parent? child = some parent) id ancestor :=
  (h.climbs_ancestors id).mem_iff

end WellFormed
end SyntaxRecovery.Tree
