import Mathlib.Data.Finset.Basic
import Mathlib.Data.Finset.Lattice.Lemmas
import SyntaxRecovery.Proofs.Tree.Forest
import SyntaxRecovery.Propagation.Attribution

/-! Trees in which some nodes have been flagged as recovered. -/
namespace SyntaxRecovery

@[simp] theorem NodeFlags.union_recovered (flags : NodeFlags) :
    (flags.union .recovered).union .recovered = flags.union .recovered := by
  simp [union, recovered, UInt8.or_assoc]

namespace Tree
variable {tree : Tree} {marked : Finset NodeId} {id : NodeId}

/-- The tree with the nodes of the set flagged as recovered. -/
def markAll (tree : Tree) (marked : Finset NodeId) : Tree :=
  { tree with nodes := tree.nodes.mapIdx fun id node =>
      if id ∈ marked then { node with flags := node.flags.union .recovered } else node }

theorem node?_markAll (tree : Tree) (marked : Finset NodeId) (id : NodeId) :
    (tree.markAll marked).node? id = (tree.node? id).map fun node =>
      if id ∈ marked then { node with flags := node.flags.union .recovered } else node := by
  simp [markAll, node?]

@[simp] theorem root_markAll : (tree.markAll marked).root = tree.root := rfl

@[simp] theorem size_markAll : (tree.markAll marked).size = tree.size := by
  simp [markAll, size]

@[simp] theorem skeleton_markAll : (tree.markAll marked).skeleton = tree.skeleton := by
  funext id
  simp only [skeleton, node?_markAll, Option.map_map]
  refine congrArg (Option.map · _) (funext fun node => ?_)
  simp only [Function.comp_apply]
  split <;> rfl

@[simp] theorem parent?_markAll : (tree.markAll marked).parent? id = tree.parent? id :=
  parent?_congr (congrFun skeleton_markAll id)

/-- A node of the marked tree is a node of the tree but for its flags. -/
theorem node?_markAll_of_node? {node : Node} (marked : Finset NodeId)
    (h : tree.node? id = some node) :
    ∃ other, (tree.markAll marked).node? id = some other ∧ other.kind = node.kind ∧
      other.shape = node.shape ∧ other.span = node.span := by
  rw [node?_markAll, h]
  refine ⟨_, rfl, ?_, ?_, ?_⟩ <;> split <;> rfl

theorem climb_congr {tree' : Tree} (h : ∀ id, tree'.parent? id = tree.parent? id) (limit : Nat)
    (start : Option NodeId) : tree'.climb limit start = tree.climb limit start := by
  induction limit generalizing start with
  | zero => cases start <;> rfl
  | succ limit ih =>
    cases start with
    | none => rfl
    | some id => rw [climb, climb, h, ih]

@[simp] theorem ancestors_markAll : (tree.markAll marked).ancestors id = tree.ancestors id := by
  rw [ancestors, ancestors, size_markAll, parent?_markAll]
  exact climb_congr (fun _ => parent?_markAll) _ _

@[simp] theorem markAll_empty : tree.markAll ∅ = tree := by
  refine eq_of_node? rfl fun id => ?_
  rw [node?_markAll]
  cases tree.node? id <;> rfl

theorem addFlags_markAll (tree : Tree) (marked : Finset NodeId) (id : NodeId) :
    (tree.markAll marked).addFlags id .recovered = tree.markAll (insert id marked) := by
  refine eq_of_node? rfl fun other => ?_
  simp only [addFlags, node?_modify, node?_markAll, Option.map_map, Finset.mem_insert]
  by_cases hid : id = other
  · subst hid
    cases tree.node? id with
    | none => simp
    | some node => by_cases hm : id ∈ marked <;> simp [hm]
  · simp [hid, Ne.symm hid]

theorem flagRecovered_markAll (hid : id < tree.size) :
    (tree.markAll marked).flagRecovered id = some (tree.markAll (insert id marked)) := by
  obtain ⟨node, hnode⟩ := node?_of_lt_size hid
  obtain ⟨other, hother, -⟩ := node?_markAll_of_node? marked hnode
  rw [flagRecovered, hother, Option.map_some, addFlags_markAll]

theorem foldlM_flagRecovered {ids : List NodeId} (hids : ∀ id ∈ ids, id < tree.size) :
    ids.foldlM flagRecovered (tree.markAll marked) =
      some (tree.markAll (marked ∪ ids.toFinset)) := by
  induction ids generalizing marked with
  | nil => simp [pure]
  | cons id ids ih =>
    obtain ⟨hid, hids⟩ := List.forall_mem_cons.mp hids
    have hset : insert id marked ∪ ids.toFinset = marked ∪ (id :: ids).toFinset := by
      rw [List.toFinset_cons, Finset.insert_union, Finset.union_insert]
    rw [List.foldlM_cons, flagRecovered_markAll hid, ← hset]
    exact ih hids

end Tree
end SyntaxRecovery
