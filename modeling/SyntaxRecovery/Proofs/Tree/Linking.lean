import SyntaxRecovery.Proofs.Tree.Acyclic
import SyntaxRecovery.Proofs.Tree.Edits

/-! Linking a list of nodes succeeds exactly where the nodes are those of a well-formed tree, and
then gives that tree. -/
namespace SyntaxRecovery

/-- The node as a list of nodes has it, where links to parents do not count. -/
def Node.unlinked (node : Node) : Node := { node with parent := none }

namespace Tree
variable {tree tree' : Tree} {nodes : Array Node} {root : Option NodeId} {id child parent : NodeId}

/-- Trees are the same where they have the same nodes and the same links. -/
theorem eq_of_unlinked (hroot : tree.root = tree'.root)
    (hnodes : ∀ id, (tree.node? id).map Node.unlinked = (tree'.node? id).map Node.unlinked)
    (hlinks : ∀ id, tree.parent? id = tree'.parent? id) : tree = tree' := by
  obtain ⟨nodes, root⟩ := tree
  obtain ⟨nodes', root'⟩ := tree'
  obtain rfl : root = root' := hroot
  suffices h : nodes = nodes' by rw [h]
  apply Array.ext_getElem?
  intro id
  have hnode : (nodes[id]?).map Node.unlinked = (nodes'[id]?).map Node.unlinked := hnodes id
  have hlink : (nodes[id]?).bind (·.parent) = (nodes'[id]?).bind (·.parent) := hlinks id
  cases h : nodes[id]? with
  | none =>
    rw [h, Option.map_none] at hnode
    exact (Option.map_eq_none_iff.mp hnode.symm).symm
  | some node =>
    rw [h, Option.map_some] at hnode
    obtain ⟨node', h', heq⟩ := Option.map_eq_some_iff.mp hnode.symm
    rw [h, h'] at hlink
    rw [h']
    obtain ⟨kind, span, flags, link⟩ := node
    obtain ⟨kind', span', flags', link'⟩ := node'
    simp only [Node.unlinked, Node.mk.injEq, and_true] at heq
    obtain ⟨rfl, rfl, rfl⟩ := heq
    obtain rfl : link = link' := hlink
    rfl

/-- The slots of the nodes, each a parent and a child. -/
def slotsOf (kinds : List NodeKind) : List (NodeId × NodeId) :=
  kinds.zipIdx.flatMap fun (kind, id) => kind.children.map (id, ·)

def slots (tree : Tree) : List (NodeId × NodeId) := slotsOf (tree.nodes.toList.map (·.kind))

theorem mem_slots : (parent, child) ∈ tree.slots ↔ child ∈ tree.children parent := by
  simp only [slots, slotsOf, List.mem_flatMap, Prod.exists, List.mem_map, Prod.mk.injEq,
    List.mem_zipIdx_iff_getElem?, List.getElem?_map, Array.getElem?_toList]
  constructor
  · rintro ⟨kind, id, hkind, other, hother, rfl, rfl⟩
    obtain ⟨node, hnode, rfl⟩ := Option.map_eq_some_iff.mp hkind
    rw [children_of_node? hnode]
    exact hother
  · intro hchild
    obtain ⟨node, hnode⟩ := node?_of_lt_size (lt_size_of_mem_children hchild)
    rw [children_of_node? hnode] at hchild
    exact ⟨node.kind, parent, by rw [show tree.nodes[parent]? = some node from hnode]; rfl,
      child, hchild, rfl, rfl⟩

theorem map_snd_slots (tree : Tree) :
    tree.slots.map (·.2) = tree.nodes.toList.flatMap (·.kind.children) := by
  have hzip (kinds : List NodeKind) (n : Nat) :
      ((kinds.zipIdx n).flatMap fun (kind, id) => kind.children.map (id, ·)).map (·.2) =
        kinds.flatMap NodeKind.children := by
    induction kinds generalizing n with
    | nil => rfl
    | cons kind kinds ih => simp [List.zipIdx_cons, ih, Function.comp_def]
  rw [slots, slotsOf, hzip, List.flatMap_map]

theorem foldlM_flatMap {m : Type → Type} [Monad m] [LawfulMonad m] {α β σ : Type} (f : α → List β)
    (step : σ → β → m σ) (l : List α) (s : σ) :
    (l.flatMap f).foldlM step s = l.foldlM (fun s a => (f a).foldlM step s) s := by
  induction l generalizing s with
  | nil => rfl
  | cons a l ih => simp [List.foldlM_append, ih]

theorem adoptAll_eq (tree : Tree) (kinds : List NodeKind) : tree.adoptAll kinds =
    (slotsOf kinds).foldlM (fun tree slot => adopt slot.1 tree slot.2) tree := by
  rw [slotsOf, foldlM_flatMap, adoptAll]
  simp only [List.foldlM_map]

theorem adopt_eq_ok_iff : adopt parent tree child = .ok tree' ↔ (child < tree.size ∧
    child ≠ parent ∧ tree.parent? child = none) ∧ tree' = tree.setParent child (some parent) := by
  simp only [adopt, bind_eq_ok_iff, find_eq_ok_iff]
  constructor
  · rintro ⟨node, hnode, h⟩
    split at h
    · cases h
    · next hne =>
      split at h
      · cases h
      · next hparent =>
        cases h
        exact ⟨⟨lt_size_of_node? hnode, hne, by simp [Tree.parent?, hnode, hparent]⟩, rfl⟩
  · rintro ⟨⟨hknown, hne, hparent⟩, rfl⟩
    obtain ⟨node, hnode⟩ := node?_of_lt_size hknown
    have hlink : node.parent = none := by simpa [Tree.parent?, hnode] using hparent
    refine ⟨node, hnode, ?_⟩
    rw [if_neg hne, hlink]
    rfl

/-- Writes the links of the slots. -/
def linkSlots (tree : Tree) (slots : List (NodeId × NodeId)) : Tree :=
  slots.foldl (fun tree slot => tree.setParent slot.2 (some slot.1)) tree

theorem foldlM_adopt_eq_ok_iff {slots : List (NodeId × NodeId)} :
    slots.foldlM (fun tree slot => adopt slot.1 tree slot.2) tree = .ok tree' ↔
      ((∀ slot ∈ slots, slot.2 < tree.size ∧ slot.2 ≠ slot.1 ∧ tree.parent? slot.2 = none) ∧
        (slots.map (·.2)).Nodup) ∧ tree' = tree.linkSlots slots := by
  induction slots generalizing tree with
  | nil =>
    simp only [List.foldlM_nil, linkSlots, List.foldl_nil, pure, Except.pure, Except.ok.injEq]
    simp [eq_comm]
  | cons slot slots ih =>
    simp only [List.foldlM_cons, bind_eq_ok_iff, adopt_eq_ok_iff, List.forall_mem_cons,
      List.map_cons, List.nodup_cons, List.mem_map, not_exists, not_and]
    constructor
    · rintro ⟨next, ⟨hslot, rfl⟩, hrest⟩
      obtain ⟨⟨hslots, hnodup⟩, rfl⟩ := ih.mp hrest
      simp only [size_setParent, parent?_setParent hslot.1] at hslots
      refine ⟨⟨⟨hslot, fun other ho => ?_⟩, fun other ho heq => ?_, hnodup⟩, rfl⟩
      · obtain ⟨hknown, hne, hlink⟩ := hslots other ho
        split at hlink
        · cases hlink
        · exact ⟨hknown, hne, hlink⟩
      · have := (hslots other ho).2.2
        simp [heq] at this
    · rintro ⟨⟨⟨hslot, hslots⟩, hnot, hnodup⟩, rfl⟩
      refine ⟨_, ⟨hslot, rfl⟩, ih.mpr ⟨⟨fun other ho => ?_, hnodup⟩, rfl⟩⟩
      rw [size_setParent, parent?_setParent hslot.1, if_neg (hnot other ho)]
      exact hslots other ho

section LinkSlots
variable {slots : List (NodeId × NodeId)}

@[simp] theorem linkSlots_root : (tree.linkSlots slots).root = tree.root := by
  induction slots generalizing tree with
  | nil => rfl
  | cons slot slots ih => exact ih

theorem unlinked_linkSlots (id : NodeId) :
    ((tree.linkSlots slots).node? id).map Node.unlinked = (tree.node? id).map Node.unlinked := by
  induction slots generalizing tree with
  | nil => rfl
  | cons slot slots ih =>
    refine ih.trans ?_
    simp only [setParent, node?_modify]
    split
    · cases tree.node? id <;> rfl
    · rfl

theorem parent?_linkSlots_of_not_mem (hknown : ∀ slot ∈ slots, slot.2 < tree.size)
    (hid : id ∉ slots.map (·.2)) : (tree.linkSlots slots).parent? id = tree.parent? id := by
  induction slots generalizing tree with
  | nil => rfl
  | cons slot slots ih =>
    obtain ⟨hslot, hslots⟩ := List.forall_mem_cons.mp hknown
    rw [List.map_cons, List.mem_cons, not_or] at hid
    refine (ih (fun other ho => by simpa using hslots other ho) hid.2).trans ?_
    rw [parent?_setParent hslot, if_neg hid.1]

theorem parent?_linkSlots_of_mem (hknown : ∀ slot ∈ slots, slot.2 < tree.size)
    (hnodup : (slots.map (·.2)).Nodup) (hmem : (parent, child) ∈ slots) :
    (tree.linkSlots slots).parent? child = some parent := by
  induction slots generalizing tree with
  | nil => cases hmem
  | cons slot slots ih =>
    obtain ⟨hslot, hslots⟩ := List.forall_mem_cons.mp hknown
    rw [List.map_cons, List.nodup_cons] at hnodup
    have hslots' : ∀ other ∈ slots, other.2 < (tree.setParent slot.2 (some slot.1)).size :=
      fun other ho => by simpa using hslots other ho
    rcases List.mem_cons.mp hmem with rfl | hmem
    · refine (parent?_linkSlots_of_not_mem hslots' hnodup.1).trans ?_
      rw [parent?_setParent hslot, if_pos rfl]
    · exact ih hslots' hnodup.2 hmem

/-- In a tree without links these are the slots. -/
theorem parent?_linkSlots_eq_some_iff (hbare : ∀ id, tree.parent? id = none)
    (hknown : ∀ slot ∈ slots, slot.2 < tree.size) (hnodup : (slots.map (·.2)).Nodup) :
    (tree.linkSlots slots).parent? child = some parent ↔ (parent, child) ∈ slots := by
  constructor
  · intro hlink
    by_cases hmem : child ∈ slots.map (·.2)
    · obtain ⟨⟨other, _⟩, hslot, rfl⟩ := List.mem_map.mp hmem
      rw [parent?_linkSlots_of_mem hknown hnodup hslot] at hlink
      exact Option.some.inj hlink ▸ hslot
    · rw [parent?_linkSlots_of_not_mem hknown hmem, hbare] at hlink
      cases hlink
  · exact parent?_linkSlots_of_mem hknown hnodup

end LinkSlots

theorem children_of_unlinked
    (h : (tree.node? id).map Node.unlinked = (tree'.node? id).map Node.unlinked) :
    tree.children id = tree'.children id := by
  have hkind := congrArg (Option.map (·.kind.children)) h
  simp only [Option.map_map] at hkind
  exact congrArg (Option.getD · []) hkind

theorem size_eq_of_unlinked
    (h : ∀ id, (tree.node? id).map Node.unlinked = (tree'.node? id).map Node.unlinked) :
    tree.size = tree'.size := by
  apply Nat.le_antisymm
  · rw [← node?_eq_none_iff, ← Option.map_eq_none_iff, h, node?_eq_none_iff.mpr (Nat.le_refl _)]
    rfl
  · rw [← node?_eq_none_iff, ← Option.map_eq_none_iff, ← h, node?_eq_none_iff.mpr (Nat.le_refl _)]
    rfl

theorem slots_eq_of_unlinked
    (h : ∀ id, (tree.node? id).map Node.unlinked = (tree'.node? id).map Node.unlinked) :
    tree.slots = tree'.slots := by
  refine congrArg slotsOf (List.ext_getElem? fun id => ?_)
  have hkind := congrArg (Option.map (·.kind)) (h id)
  simp only [Option.map_map] at hkind
  simp only [List.getElem?_map, Array.getElem?_toList]
  exact hkind

/-- In a well-formed tree no node is in two slots. -/
theorem WellFormed.nodup_slots (h : tree.WellFormed) : (tree.slots.map (·.2)).Nodup := by
  rw [map_snd_slots, List.nodup_flatMap]
  constructor
  · intro node hnode
    obtain ⟨id, hid⟩ := List.mem_iff_getElem?.mp hnode
    rw [Array.getElem?_toList] at hid
    rw [← children_of_node? hid]
    exact h.nodup id
  · rw [List.pairwise_iff_getElem]
    intro i j hi hj hij child hci hcj
    have hchildren (k : Nat) (hk : k < tree.nodes.toList.length) :
        tree.children k = tree.nodes.toList[k].kind.children :=
      children_of_node? (by simp [node?])
    have hpi := (h.linked i child).mp (by rw [hchildren i hi]; exact hci)
    have hpj := (h.linked j child).mp (by rw [hchildren j hj]; exact hcj)
    exact Nat.ne_of_lt hij (Option.some.inj (hpi.symm.trans hpj))

/-- The nodes as they come, without any links. -/
def bare (nodes : Array Node) (root : Option NodeId) : Tree :=
  { nodes := nodes.map ({ · with parent := none }), root }

@[simp] theorem parent?_bare (id : NodeId) : (bare nodes root).parent? id = none := by
  simp [Tree.parent?, node?, bare]

theorem slots_bare (nodes : Array Node) (root : Option NodeId) :
    (bare nodes root).slots = slotsOf (nodes.toList.map (·.kind)) := by
  simp [slots, bare, Function.comp_def]

theorem link_eq_ok_iff_steps : link nodes root = .ok tree ↔
    (bare nodes root).adoptAll (nodes.toList.map (·.kind)) = .ok tree ∧
      (∀ id ∈ root, id < tree.size) ∧ ∀ id, tree.Ends (tree.parent? id) := by
  have hacyclic (linked : Tree) : (do linked.checkAcyclic; return linked) = .ok tree ↔
      linked = tree ∧ ∀ id, tree.Ends (tree.parent? id) := by
    rw [bind_eq_ok_iff]
    constructor
    · rintro ⟨⟨⟩, hcheck, h⟩
      obtain rfl := Except.ok.inj h
      exact ⟨rfl, checkAcyclic_eq_ok_iff.mp hcheck⟩
    · rintro ⟨rfl, h⟩
      exact ⟨(), checkAcyclic_eq_ok_iff.mpr h, rfl⟩
  cases root with
  | none =>
    have h : link nodes none = (bare nodes none).adoptAll (nodes.toList.map (·.kind)) >>=
        fun linked => do linked.checkAcyclic; return linked := rfl
    simp only [h, bind_eq_ok_iff, hacyclic, Option.mem_def, reduceCtorEq, false_implies,
      implies_true, true_and]
    constructor
    · rintro ⟨linked, hlinked, rfl, hends⟩
      exact ⟨hlinked, hends⟩
    · rintro ⟨hlinked, hends⟩
      exact ⟨tree, hlinked, rfl, hends⟩
  | some id =>
    have h : link nodes (some id) = (bare nodes (some id)).adoptAll (nodes.toList.map (·.kind)) >>=
        fun linked => linked.find id >>= fun _ => do linked.checkAcyclic; return linked := rfl
    simp only [h, bind_eq_ok_iff, hacyclic, find_eq_ok_iff, Option.mem_def, Option.some.injEq,
      forall_eq']
    constructor
    · rintro ⟨linked, hlinked, node, hnode, rfl, hends⟩
      exact ⟨hlinked, lt_size_of_node? hnode, hends⟩
    · rintro ⟨hlinked, hid, hends⟩
      obtain ⟨node, hnode⟩ := node?_of_lt_size hid
      exact ⟨tree, hlinked, node, hnode, rfl, hends⟩

/-- Linking gives a tree exactly where this tree is well-formed and has the nodes and the root. -/
theorem link_eq_ok_iff : link nodes root = .ok tree ↔ tree.WellFormed ∧ tree.root = root ∧
    (∀ id ∈ root, id < tree.size) ∧ ∀ id, (tree.node? id).map Node.unlinked =
      (nodes[id]?).map Node.unlinked := by
  have hbare (id : NodeId) : ((bare nodes root).node? id).map Node.unlinked =
      (nodes[id]?).map Node.unlinked := by
    simp only [bare, node?, Array.getElem?_map, Option.map_map]
    rfl
  rw [link_eq_ok_iff_steps, adoptAll_eq, ← slots_bare nodes root, foldlM_adopt_eq_ok_iff]
  constructor
  · rintro ⟨⟨⟨hslots, hnodup⟩, rfl⟩, hroot, hends⟩
    have hknown : ∀ slot ∈ (bare nodes root).slots, slot.2 < (bare nodes root).size :=
      fun slot hs => (hslots slot hs).1
    have hchildren (id : NodeId) := children_of_unlinked (@unlinked_linkSlots (bare nodes root)
      (bare nodes root).slots id)
    refine ⟨⟨fun parent => ?_, fun parent child => ?_, hends⟩, linkSlots_root, hroot,
      fun id => (unlinked_linkSlots id).trans (hbare id)⟩
    · rw [hchildren]
      rw [map_snd_slots, List.nodup_flatMap] at hnodup
      by_cases hparent : parent < (bare nodes root).size
      · obtain ⟨node, hnode⟩ := node?_of_lt_size hparent
        rw [children_of_node? hnode]
        exact hnodup.1 node (Array.mem_toList_iff.mpr (Array.mem_of_getElem? hnode))
      · have hnil : (bare nodes root).children parent = [] := by
          simp [children, node?_eq_none_iff.mpr (Nat.le_of_not_lt hparent)]
        rw [hnil]
        exact List.nodup_nil
    · rw [hchildren, ← mem_slots, parent?_linkSlots_eq_some_iff parent?_bare hknown hnodup]
  · rintro ⟨h, hroot, hknown, hnodes⟩
    have hsame (id : NodeId) := (hbare id).trans (hnodes id).symm
    have hsize := size_eq_of_unlinked hsame
    have hslots := slots_eq_of_unlinked hsame
    rw [hslots]
    refine ⟨⟨⟨fun slot hs => ?_, h.nodup_slots⟩, ?_⟩, hknown, h.rooted⟩
    · have hlink := (h.linked slot.1 slot.2).mp (mem_slots.mp hs)
      exact ⟨hsize ▸ lt_size_of_parent? hlink, h.ne_of_parent? hlink, parent?_bare _⟩
    · have hslots' : ∀ slot ∈ tree.slots, slot.2 < (bare nodes root).size := fun slot hs =>
        hsize ▸ h.child_lt_size (mem_slots.mp hs)
      refine eq_of_unlinked (by simp [hroot, bare]) (fun id => ?_) fun id => ?_
      · exact (hsame id).symm.trans (unlinked_linkSlots id).symm
      · by_cases hid : id ∈ tree.slots.map (·.2)
        · obtain ⟨⟨parent, _⟩, hslot, rfl⟩ := List.mem_map.mp hid
          rw [parent?_linkSlots_of_mem hslots' h.nodup_slots hslot]
          exact (h.linked _ _).mp (mem_slots.mp hslot)
        · rw [parent?_linkSlots_of_not_mem hslots' hid, parent?_bare]
          by_contra hlink
          obtain ⟨parent, hparent⟩ := Option.ne_none_iff_exists'.mp hlink
          exact hid (List.mem_map.mpr ⟨(parent, id), mem_slots.mpr ((h.linked _ _).mpr hparent),
            rfl⟩)

theorem wellFormed_of_link (h : link nodes root = .ok tree) : tree.WellFormed :=
  (link_eq_ok_iff.mp h).1

theorem root_lt_size_of_link (h : link nodes root = .ok tree) :
    ∀ id ∈ tree.root, id < tree.size := by
  obtain ⟨-, hroot, hknown, -⟩ := link_eq_ok_iff.mp h
  rw [hroot]
  exact hknown

/-- Linking the nodes of a well-formed tree gives the same tree again. -/
theorem WellFormed.link_eq (h : tree.WellFormed) (hroot : ∀ id ∈ tree.root, id < tree.size) :
    link tree.nodes tree.root = .ok tree :=
  link_eq_ok_iff.mpr ⟨h, rfl, hroot, fun _ => rfl⟩

end Tree
end SyntaxRecovery
