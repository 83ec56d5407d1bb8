import SyntaxRecovery.Proofs.Tree.Linking

/-! Which lists of nodes make a tree. The slots alone decide it, whatever parents the nodes claim to
have, and the links of the tree are its slots. -/
namespace SyntaxRecovery.Tree
variable {tree : Tree} {nodes : Array Node} {root : Option NodeId} {child parent : NodeId}

/-- The node `parent` has `child` in a slot. -/
def Fills (nodes : Array Node) (child parent : NodeId) : Prop :=
  ∃ node, nodes[parent]? = some node ∧ child ∈ node.kind.children

theorem fills_iff (nodes : Array Node) (root : Option NodeId) :
    Fills nodes child parent ↔ child ∈ Tree.children ⟨nodes, root⟩ parent := by
  cases h : nodes[parent]? <;> simp [Fills, children, node?, h]

/-- The slots of the nodes are those of a forest that has the root. -/
structure Linkable (nodes : Array Node) (root : Option NodeId) : Prop where
  known : ∀ node ∈ nodes, ∀ child ∈ node.kind.children, child < nodes.size
  single : (nodes.toList.flatMap (·.kind.children)).Nodup
  acyclic : ∀ id, ¬ Relation.TransGen (Fills nodes) id id
  root : ∀ id ∈ root, id < nodes.size

theorem WellFormed.linkable (h : tree.WellFormed) (hroot : ∀ id ∈ tree.root, id < tree.size) :
    Linkable tree.nodes tree.root where
  known node hnode child hchild := by
    obtain ⟨id, hid⟩ := Array.mem_iff_getElem?.mp hnode
    exact h.child_lt_size (children_of_node? hid ▸ hchild)
  single := map_snd_slots tree ▸ h.nodup_slots
  acyclic id hcycle := by
    refine h.not_mem_ancestors id (h.mem_ancestors_iff.mpr (Relation.TransGen.mono ?_ id id hcycle))
    intro child parent hfills
    exact (h.linked parent child).mp ((fills_iff tree.nodes tree.root).mp hfills)
  root := hroot

/-- The slots do not depend on the links. -/
theorem Linkable.of_unlinked {nodes' : Array Node} (h : Linkable nodes root)
    (hnodes : ∀ id : NodeId, (nodes[id]?).map Node.unlinked = (nodes'[id]?).map Node.unlinked) :
    Linkable nodes' root := by
  have hsize : nodes.size = nodes'.size := @size_eq_of_unlinked ⟨nodes, root⟩ ⟨nodes', root⟩ hnodes
  have hchildren (id : NodeId) : Tree.children ⟨nodes, root⟩ id = Tree.children ⟨nodes', root⟩ id :=
    children_of_unlinked (hnodes id)
  have hslots := @slots_eq_of_unlinked ⟨nodes, root⟩ ⟨nodes', root⟩ hnodes
  have hfills {child parent : NodeId} : Fills nodes' child parent ↔ Fills nodes child parent := by
    rw [fills_iff nodes' root, fills_iff nodes root, hchildren]
  refine ⟨fun node hnode child hchild => ?_, ?_, fun id hcycle => ?_, hsize ▸ h.root⟩
  · obtain ⟨id, hid⟩ := Array.mem_iff_getElem?.mp hnode
    obtain ⟨node', hnode', hchild'⟩ := hfills.mp ⟨node, hid, hchild⟩
    exact hsize ▸ h.known node' (Array.mem_of_getElem? hnode') child hchild'
  · have hsingle := h.single
    rw [← map_snd_slots ⟨nodes, root⟩, hslots, map_snd_slots] at hsingle
    exact hsingle
  · exact h.acyclic id (Relation.TransGen.mono (fun _ _ => hfills.mp) id id hcycle)

/-- Where the slots are those of a forest, linking meets no obstacle. -/
theorem Linkable.exists_link (h : Linkable nodes root) : ∃ tree, link nodes root = .ok tree := by
  have hbare : (bare nodes root).slots = Tree.slots ⟨nodes, root⟩ := slots_bare nodes root
  have hslot (slot : NodeId × NodeId) : slot ∈ (bare nodes root).slots ↔
      Fills nodes slot.2 slot.1 := by
    rw [hbare, fills_iff nodes root]
    exact mem_slots
  have hsize : (bare nodes root).size = nodes.size := Array.size_map
  have hknown : ∀ slot ∈ (bare nodes root).slots, slot.2 < (bare nodes root).size := by
    intro slot hs
    obtain ⟨node, hnode, hchild⟩ := (hslot slot).mp hs
    exact hsize ▸ h.known node (Array.mem_of_getElem? hnode) slot.2 hchild
  have hnodup : ((bare nodes root).slots.map (·.2)).Nodup := by
    rw [hbare, map_snd_slots]
    exact h.single
  have hacyclic : ((bare nodes root).linkSlots (bare nodes root).slots).Acyclic := by
    intro id hcycle
    refine h.acyclic id (Relation.TransGen.mono (fun child parent hlink => ?_) id id hcycle)
    exact (hslot (parent, child)).mp
      ((parent?_linkSlots_eq_some_iff parent?_bare hknown hnodup).mp hlink)
  refine ⟨(bare nodes root).linkSlots (bare nodes root).slots,
    link_eq_ok_iff_steps.mpr ⟨?_, ?_, ?_⟩⟩
  · rw [adoptAll_eq, ← slots_bare nodes root, foldlM_adopt_eq_ok_iff]
    refine ⟨⟨fun slot hs => ⟨hknown slot hs, fun heq => ?_, parent?_bare _⟩, hnodup⟩, rfl⟩
    exact h.acyclic slot.2 (.single (heq ▸ (hslot slot).mp hs))
  · rw [size_eq_of_unlinked unlinked_linkSlots, hsize]
    exact h.root
  · exact checkAcyclic_eq_ok_iff.mp (checkAcyclic_eq_ok_iff_acyclic.mpr hacyclic)

/-- Linking takes exactly the nodes and roots of forests, and makes the links out of the slots. -/
theorem link_accepts (nodes : Array Node) (root : Option NodeId) :
    ((∃ tree, link nodes root = .ok tree) ↔ Linkable nodes root) ∧
    ∀ tree, link nodes root = .ok tree → tree.root = root ∧
      (∀ id, (tree.node? id).map Node.unlinked = (nodes[id]?).map Node.unlinked) ∧
      ∀ child parent, tree.parent? child = some parent ↔ Fills nodes child parent := by
  refine ⟨⟨?_, fun h => h.exists_link⟩, fun tree h => ?_⟩
  · rintro ⟨tree, h⟩
    obtain ⟨hwf, rfl, hroot, hnodes⟩ := link_eq_ok_iff.mp h
    exact (hwf.linkable hroot).of_unlinked hnodes
  · obtain ⟨hwf, hroot, -, hnodes⟩ := link_eq_ok_iff.mp h
    refine ⟨hroot, hnodes, fun child parent => ?_⟩
    rw [← hwf.linked, fills_iff nodes root,
      @children_of_unlinked tree ⟨nodes, root⟩ parent (hnodes parent)]

/-- A statement of a name that claims to be its own parent. -/
def strayName : Array Node :=
  #[{ Node.placeholder 0 with parent := some 0 },
    { kind := ⟨.expressionStatement, (0, ())⟩, span := ⟨0, 1⟩, flags := .empty }]

theorem link_accepts_strayName :
    Linkable strayName (some 1) ∧ ∃ tree, link strayName (some 1) = .ok tree ∧
      tree.parent? 0 = some 1 := by
  have hlink : link strayName (some 1) =
      .ok { nodes := strayName.set 0 { Node.placeholder 0 with parent := some 1 },
            root := some 1 } := by
    decide +kernel
  obtain ⟨haccepts, hresult⟩ := link_accepts strayName (some 1)
  obtain ⟨-, -, hlinks⟩ := hresult _ hlink
  exact ⟨haccepts.mp ⟨_, hlink⟩, _, hlink, (hlinks 0 1).mpr ⟨_, rfl, by decide⟩⟩

end SyntaxRecovery.Tree
