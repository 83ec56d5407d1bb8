import SyntaxRecovery.Proofs.Propagation.Departures

/-! What repairs leave behind. A node is repaired when it is left, and is flagged for an insertion
when the nodes that end with it have all been left. A shape that calls for a repair therefore
survives only where an insertion comes to a node after its repair. -/
namespace SyntaxRecovery

/-- Some insertion is anchored on the last byte of the span, or inside of it before that. -/
def EditLog.InsertsAt (log : EditLog) (span : Span) : Prop :=
  ∃ edit ∈ log.insertions, edit.anchor + 1 = span.stop ∨
    span.start ≤ edit.anchor ∧ edit.anchor + 1 < span.stop

namespace Tree
variable {tree tree' tree'' : Tree} {id child other top : NodeId} {node : Node}
  {marked : Finset NodeId}

/-- Where a recovered statement `x = <missing>;` may be left: at an insertion, or where the
statement or its assignment is the left side of another assignment. -/
def MayKeepAssignment (tree : Tree) (log : EditLog) (id expression : NodeId) : Prop :=
  (∃ node, tree.node? id = some node ∧ log.InsertsAt node.span) ∨ tree.OnLeftSide id ∨
    tree.OnLeftSide expression

/-- Where a missing initializer may be left: at an insertion, at the end of its declaration. -/
def MayKeepInitializer (tree : Tree) (log : EditLog) (id value : NodeId) : Prop :=
  ∃ statement name, tree.node? id = some statement ∧ tree.node? value = some name ∧
    name.span.stop = statement.span.stop ∧ log.InsertsAt name.span

/-- A later tree of a walk: nodes stay what they are, none gets below another, and no other node
gets on the left side of an assignment. -/
structure Continues (tree tree' : Tree) : Prop where
  keeps : tree.Keeps tree'
  below : ∀ {top other}, other < tree.size → tree'.Below top other → tree.Below top other
  onLeftSide : ∀ {other}, other < tree.size → tree'.OnLeftSide other → tree.OnLeftSide other

theorem Continues.refl (tree : Tree) : tree.Continues tree :=
  ⟨.refl tree, fun _ h => h, fun _ h => h⟩

theorem Continues.trans (h : tree.Continues tree') (h' : tree'.Continues tree'') :
    tree.Continues tree'' where
  keeps := h.keeps.trans h'.keeps
  below ho hb := h.below ho (h'.below (Nat.lt_of_lt_of_le ho h.keeps.size_le) hb)
  onLeftSide ho hl := h.onLeftSide ho (h'.onLeftSide (Nat.lt_of_lt_of_le ho h.keeps.size_le) hl)

/-- A node of the marked tree is a node of the tree, with one more flag if it is in the set. -/
theorem of_node?_markAll {node' : Node} (h : (tree.markAll marked).node? id = some node') :
    ∃ node, tree.node? id = some node ∧ node'.kind = node.kind ∧ node'.span = node.span ∧
      node'.isProtected = node.isProtected ∧ (id ∉ marked → node' = node) := by
  rw [node?_markAll] at h
  obtain ⟨node, hnode, rfl⟩ := Option.map_eq_some_iff.mp h
  by_cases hmem : id ∈ marked
  · rw [if_pos hmem]
    exact ⟨node, hnode, rfl, rfl, Node.isProtected_union node.flags, fun hnot => absurd hmem hnot⟩
  · rw [if_neg hmem]
    exact ⟨node, hnode, rfl, rfl, rfl, fun _ => rfl⟩

theorem continues_markAll (tree : Tree) (marked : Finset NodeId) :
    tree.Continues (tree.markAll marked) where
  keeps := keeps_markAll tree marked
  below _ hb := by
    refine Relation.ReflTransGen.mono (fun child parent hp => ?_) _ _ hb
    rwa [parent?_markAll] at hp
  onLeftSide _ hl := by
    obtain ⟨holder, node', operator, right, hnode', hkind⟩ := hl
    obtain ⟨node, hnode, hsame, -⟩ := of_node?_markAll hnode'
    exact ⟨holder, node, operator, right, hnode, hsame ▸ hkind⟩

theorem Rewrites.continues (h : Rewrites tree id tree') (hwf : tree.WellFormed) :
    tree.Continues tree' :=
  ⟨h.keeps, fun ho hb => h.of_below hwf ho hb, fun ho hl => h.onLeftSide ho hl⟩

/-- A statement that is not the node of a repair has not got its shape from it, but for a flag on a
left side. -/
theorem DanglingAssignment.of_rewrites {expression : NodeId} (h : Rewrites tree id tree')
    (hwf : tree.WellFormed) (ho : other < tree.size) (hne : other ≠ id)
    (hd : tree'.DanglingAssignment other expression) :
    tree.DanglingAssignment other expression ∨ tree.OnLeftSide other := by
  obtain ⟨node', hnode', hkind, hrecovered, hfree⟩ := hd.statement
  obtain ⟨inner', left, operator, right, hinner', hkind', hfree', value', hvalue', hname⟩ :=
    hd.assignment
  obtain ⟨node, hnode⟩ := node?_of_lt_size ho
  obtain ⟨found, hfound, hres⟩ := h.keeps.resembles other node hnode
  obtain rfl := Option.some.inj (hnode'.symm.trans hfound)
  have hshape : node.shape = .expressionStatement :=
    hres.shape_eq.symm.trans (congrArg NodeKind.shape hkind)
  have hsame : node'.kind = node.kind :=
    h.kind_eq hnode hnode' (fun heq => absurd heq hne) fun _ => by rw [hshape]; decide
  have hmem : expression ∈ node.kind.children := by
    rw [← hsame, hkind]
    exact List.mem_cons_self
  obtain ⟨hparent, -⟩ := mem_children_of_node? hwf hnode rfl hmem
  have hassign : inner'.shape = .assignment := congrArg NodeKind.shape hkind'
  obtain ⟨inner, hinner, hres'⟩ := h.keeps.of_node? hinner' (.inl (by rw [hassign]; decide))
  have hshape' : inner.shape = .assignment := hres'.shape_eq.symm.trans hassign
  have hsame' : inner'.kind = inner.kind :=
    h.kind_eq hinner hinner' (fun _ => by rw [hshape']; decide)
      fun hp => absurd (Option.some.inj (hparent.symm.trans hp)) hne
  obtain ⟨value, hvalue, hres''⟩ := h.keeps.of_node? hvalue' (.inr hname)
  have hassignment : ∃ node left operator right, tree.node? expression = some node ∧
      node.kind = ⟨.assignment, (left, operator, right, ())⟩ ∧ node.isProtected = false ∧
        tree.IsMissing right :=
    ⟨inner, left, operator, right, hinner, hsame'.symm.trans hkind',
      hres'.isProtected_eq.symm.trans hfree', value, hvalue,
      hres''.isMissingName_eq.symm.trans hname⟩
  rcases h.recovered_cases hnode hnode' hrecovered with hr | hl | hs
  · exact .inl ⟨⟨node, hnode, hsame.symm.trans hkind, hr, hres.isProtected_eq.symm.trans hfree⟩,
      hassignment⟩
  · exact .inr hl
  · rw [hshape] at hs
    cases hs

/-- A statement that a repair leaves has been one before, elsewhere, but for left sides of
assignments. -/
theorem DanglingAssignment.of_repair {expression : NodeId} {inBody : Bool} (hwf : tree.WellFormed)
    (hnode : tree.node? id = some node) (hrepair : tree.repair id node.shape inBody = some tree')
    (ho : other < tree.size) (hd : tree'.DanglingAssignment other expression) :
    other ≠ id ∧ tree.DanglingAssignment other expression ∨ tree.OnLeftSide other ∨
      tree.OnLeftSide expression := by
  have hrewrites := repair_rewrites hwf hnode hrepair
  by_cases heq : other = id
  · -- The statement itself has just been repaired.
    subst heq
    obtain ⟨statement, hstatement, hkind, -⟩ := hd.statement
    obtain ⟨found, hfound, hres⟩ := hrewrites.keeps.resembles other node hnode
    obtain rfl := Option.some.inj (hstatement.symm.trans hfound)
    have hshape : node.shape = .expressionStatement :=
      hres.shape_eq.symm.trans (congrArg NodeKind.shape hkind)
    rw [hshape] at hrepair
    exact .inr (.inr ((collapseAssignment_rewrites hwf hnode hrepair).2 expression hd))
  · rcases hd.of_rewrites hrewrites hwf ho heq with hd | hl
    · exact .inl ⟨heq, hd⟩
    · exact .inr (.inl hl)

theorem DanglingAssignment.of_markAll {expression : NodeId}
    (h : (tree.markAll marked).DanglingAssignment other expression) :
    tree.DanglingAssignment other expression ∨ other ∈ marked := by
  obtain ⟨node', hnode', hkind, hrecovered, hfree⟩ := h.statement
  obtain ⟨inner', left, operator, right, hinner', hkind', hfree', value', hvalue', hname⟩ :=
    h.assignment
  obtain ⟨node, hnode, hsame, -, hprotected, hplain⟩ := of_node?_markAll hnode'
  obtain ⟨inner, hinner, hsame', -, hprotected', -⟩ := of_node?_markAll hinner'
  obtain ⟨value, hvalue, hsame'', -⟩ := of_node?_markAll hvalue'
  by_cases hmem : other ∈ marked
  · exact .inr hmem
  · obtain rfl := hplain hmem
    rw [Node.isMissingName, hsame''] at hname
    exact .inl ⟨⟨node', hnode, hkind, hrecovered, hfree⟩, inner, left, operator, right, hinner,
      hsame'.symm.trans hkind', hprotected'.symm.trans hfree', value, hvalue, hname⟩

/-- A declaration that is not the node of a repair has not got its shape from it. -/
theorem DanglingInitializer.of_rewrites {value : NodeId} (h : Rewrites tree id tree')
    (hwf : tree.WellFormed) (ho : other < tree.size) (hne : other ≠ id)
    (hd : tree'.DanglingInitializer other value) : tree.DanglingInitializer other value := by
  obtain ⟨node', type, fragments, fragment, hnode', hkind, hmem, hfragment, hvalue⟩ := hd
  obtain ⟨holder', name, hholder', hkind', hfree⟩ := hfragment
  obtain ⟨value', hvalue', hrecovered, hname⟩ := hvalue
  obtain ⟨node, hnode⟩ := node?_of_lt_size ho
  obtain ⟨found, hfound, hres⟩ := h.keeps.resembles other node hnode
  obtain rfl := Option.some.inj (hnode'.symm.trans hfound)
  have hshape : node.shape = .variableDeclarationStatement :=
    hres.shape_eq.symm.trans (congrArg NodeKind.shape hkind)
  have hsame : node'.kind = node.kind :=
    h.kind_eq hnode hnode' (fun heq => absurd heq hne) fun _ => by rw [hshape]; decide
  have hchild : fragment ∈ node.kind.children := by
    rw [← hsame, hkind]
    exact List.mem_append_right [type] (List.mem_append_left [] hmem)
  obtain ⟨hparent, -⟩ := mem_children_of_node? hwf hnode rfl hchild
  have hdeclares : holder'.shape = .variableDeclarationFragment := congrArg NodeKind.shape hkind'
  obtain ⟨holder, hholder, hres'⟩ := h.keeps.of_node? hholder' (.inl (by rw [hdeclares]; decide))
  have hshape' : holder.shape = .variableDeclarationFragment := hres'.shape_eq.symm.trans hdeclares
  have hsame' : holder'.kind = holder.kind :=
    h.kind_eq hholder hholder' (fun _ => by rw [hshape']; decide)
      fun hp => absurd (Option.some.inj (hparent.symm.trans hp)) hne
  have hinitializer : value ∈ holder.kind.children := by
    rw [← hsame', hkind']
    exact List.mem_cons_of_mem name List.mem_cons_self
  obtain ⟨hparent', -⟩ := mem_children_of_node? hwf hholder rfl hinitializer
  obtain ⟨found, hfound, hres''⟩ := h.keeps.of_node? hvalue' (.inr hname)
  refine ⟨node, type, fragments, fragment, hnode, hsame.symm.trans hkind, hmem,
    ⟨holder, name, hholder, hsame'.symm.trans hkind', hres'.isProtected_eq.symm.trans hfree⟩,
    found, hfound, ?_, hres''.isMissingName_eq.symm.trans hname⟩
  rcases h.recovered_cases hfound hvalue' hrecovered with hr | hl | hs
  · exact hr
  · -- The value hangs below a fragment, and not below an assignment.
    obtain ⟨above, node₁, operator, right, hnode₁, hkind₁⟩ := hl
    have hleft : value ∈ node₁.kind.children := by
      rw [hkind₁]
      exact List.mem_cons_self
    obtain ⟨hparent₁, -⟩ := mem_children_of_node? hwf hnode₁ rfl hleft
    obtain rfl := Option.some.inj (hparent'.symm.trans hparent₁)
    obtain rfl := Option.some.inj (hholder.symm.trans hnode₁)
    rw [Node.shape, hkind₁] at hshape'
    cases hshape'
  · rw [← hres''.shape_eq, Node.shape_of_isMissingName hname] at hs
    cases hs

/-- A declaration that a repair leaves has been one before, elsewhere. -/
theorem DanglingInitializer.of_repair {value : NodeId} {inBody : Bool} (hwf : tree.WellFormed)
    (hnode : tree.node? id = some node) (hrepair : tree.repair id node.shape inBody = some tree')
    (ho : other < tree.size) (hd : tree'.DanglingInitializer other value) :
    other ≠ id ∧ tree.DanglingInitializer other value := by
  have hrewrites := repair_rewrites hwf hnode hrepair
  by_cases heq : other = id
  · subst heq
    have hkept := hd
    obtain ⟨statement, type, fragments, fragment, hstatement, hkind, -⟩ := hd
    obtain ⟨found, hfound, hres⟩ := hrewrites.keeps.resembles other node hnode
    obtain rfl := Option.some.inj (hstatement.symm.trans hfound)
    have hshape : node.shape = .variableDeclarationStatement :=
      hres.shape_eq.symm.trans (congrArg NodeKind.shape hkind)
    rw [hshape] at hrepair
    exact absurd hkept ((clearInitializers_rewrites hwf hnode hrepair).2 value)
  · exact ⟨heq, hd.of_rewrites hrewrites hwf ho heq⟩

theorem DanglingInitializer.of_markAll {value : NodeId}
    (h : (tree.markAll marked).DanglingInitializer other value) :
    tree.DanglingInitializer other value ∨ value ∈ marked := by
  obtain ⟨node', type, fragments, fragment, hnode', hkind, hmem, hfragment, hvalue⟩ := h
  obtain ⟨holder', name, hholder', hkind', hfree⟩ := hfragment
  obtain ⟨value', hvalue', hrecovered, hname⟩ := hvalue
  obtain ⟨node, hnode, hsame, -⟩ := of_node?_markAll hnode'
  obtain ⟨holder, hholder, hsame', -, hprotected, -⟩ := of_node?_markAll hholder'
  obtain ⟨found, hfound, -, -, -, hplain⟩ := of_node?_markAll hvalue'
  by_cases hin : value ∈ marked
  · exact .inr hin
  · obtain rfl := hplain hin
    exact .inl ⟨node, type, fragments, fragment, hnode, hsame.symm.trans hkind, hmem,
      ⟨holder, name, hholder, hsame'.symm.trans hkind', hprotected.symm.trans hfree⟩,
      value', hfound, hrecovered, hname⟩

/-- An initializer is below its declaration. -/
theorem DanglingInitializer.below {value : NodeId} (hwf : tree.WellFormed)
    (h : tree.DanglingInitializer other value) : tree.Below other value := by
  obtain ⟨node, type, fragments, fragment, hnode, hkind, hmem, ⟨holder, name, hholder, hkind', -⟩,
    -⟩ := h
  have hchild : fragment ∈ node.kind.children := by
    rw [hkind]
    exact List.mem_append_right [type] (List.mem_append_left [] hmem)
  have hinitializer : value ∈ holder.kind.children := by
    rw [hkind']
    exact List.mem_cons_of_mem name List.mem_cons_self
  exact .step (mem_children_of_node? hwf hholder rfl hinitializer).1
    (.step (mem_children_of_node? hwf hnode rfl hchild).1 .refl)

end Tree

namespace Attribution
variable {tree tree' tree'' : Tree} {log : EditLog} {left rest : List Departure}
  {departure : Departure} {state state' : Attribution} {diagnostics : List Diagnostic}
  {marked : Finset NodeId} {node : Node}

/-- The nodes that wait when the nodes of the list have been left. They have been left in a block
and end where the last of the list does, and nodes of the list around them wait with them. -/
structure Waiting (tree : Tree) (left : List Departure) (state : Attribution) : Prop where
  known : ∀ id ∈ state.pending, ∃ departure ∈ left, departure.id = id
  ends : ∀ id ∈ state.pending, ∃ node, tree.node? id = some node ∧
    state.lastStop = some node.span.stop
  around : ∀ id ∈ state.pending, ∀ departure ∈ left, tree.Below departure.id id →
    departure.id ∈ state.pending
  inBody : state.pending ≠ [] → ∀ last ∈ left.getLast?, 0 < last.depth

namespace Waiting

theorem start : Waiting tree [] (.start log diagnostics) where
  known _ hid := nomatch hid
  ends _ hid := nomatch hid
  around _ hid := nomatch hid
  inBody hne := absurd rfl hne

theorem of_nil (hnil : state.pending = []) : Waiting tree left state where
  known _ hid := by
    rw [hnil] at hid
    cases hid
  ends _ hid := by
    rw [hnil] at hid
    cases hid
  around _ hid := by
    rw [hnil] at hid
    cases hid
  inBody hne := absurd hnil hne

/-- Outside of blocks nobody waits where a node other than a block is left. -/
theorem pending_eq_nil (h : Waiting tree left state)
    (hsplit : tree.departures log = left ++ departure :: rest) (hdepth : departure.depth = 0)
    (hnode : tree.node? departure.id = some node) (hshape : node.shape ≠ .block) :
    state.pending = [] := by
  by_contra hne
  obtain ⟨id, hid⟩ := List.exists_mem_of_ne_nil _ hne
  obtain ⟨first, hfirst, -⟩ := h.known id hid
  have hlast := List.getLast?_eq_some_getLast (List.ne_nil_of_mem hfirst)
  generalize left.getLast (List.ne_nil_of_mem hfirst) = last at hlast
  have hchain := Tree.isChain_departures tree log
  rw [hsplit, List.isChain_append] at hchain
  obtain ⟨block, hblock, hshape'⟩ :=
    hchain.2.2 last hlast departure rfl ⟨h.inBody hne last hlast, hdepth⟩
  obtain rfl := Option.some.inj (hnode.symm.trans hblock)
  exact hshape hshape'

theorem depart (h : Waiting tree left state) (hwf : tree.WellFormed)
    (hsplit : tree.departures log = left ++ departure :: rest)
    (hnode : tree.node? departure.id = some node) {node' : Node} (hshape : node'.shape = node.shape)
    (hspan : node'.span = node.span)
    (hleaves : Leaves tree' departure.id node'
      { state with depth := departure.depth + if node'.shape = .block then 1 else 0 } marked
        state') :
    Waiting tree (left ++ [departure]) state' := by
  have hdepth : state'.depth = departure.depth := by
    rw [hleaves.depth_eq]
    exact Nat.add_sub_cancel _ _
  have hlast : departure ∈ left ++ [departure] := List.mem_append_right _ List.mem_cons_self
  have hstop : state'.lastStop = some node.span.stop := hspan ▸ hleaves.lastStop_eq
  -- Of the nodes of the list only the last one can be around it.
  have houter : ∀ first ∈ left ++ [departure], tree.Below first.id departure.id →
      first.id = departure.id := by
    have hpairwise := Tree.pairwise_departures hwf log
    rw [hsplit, List.pairwise_append] at hpairwise
    intro first hf hb
    rcases List.mem_append.mp hf with hf | hf
    · exact absurd hb (hpairwise.2.2 first hf departure List.mem_cons_self)
    · rw [List.mem_singleton.mp hf]
  have hbody (hin : state'.InBody) : ∀ last ∈ (left ++ [departure]).getLast?, 0 < last.depth := by
    intro last hl
    rw [List.getLast?_concat] at hl
    cases hl
    exact hdepth ▸ hin
  rcases hleaves.pending_cases with hnil | ⟨hin, hone | ⟨hmore, hsame⟩⟩ | ⟨hout, hblock, hsame⟩
  · exact .of_nil hnil
  · have hid : ∀ id ∈ state'.pending, id = departure.id := fun id hid =>
      List.mem_singleton.mp (hone ▸ hid)
    refine ⟨fun id hp => ⟨departure, hlast, (hid id hp).symm⟩, fun id hp => ?_,
      fun id hp first hf hb => ?_, fun _ => hbody hin⟩
    · rw [hid id hp]
      exact ⟨node, hnode, hstop⟩
    · rw [hid id hp] at hb
      rw [hone, houter first hf hb]
      exact List.mem_cons_self
  · have hid : ∀ id ∈ state'.pending, id = departure.id ∨ id ∈ state.pending := fun id hid =>
      List.mem_cons.mp (hmore ▸ hid)
    have hin' : ∀ id ∈ state.pending, id ∈ state'.pending := fun id hp =>
      hmore ▸ List.mem_cons_of_mem departure.id hp
    have hself : departure.id ∈ state'.pending := hmore ▸ List.mem_cons_self
    refine ⟨fun id hp => ?_, fun id hp => ?_, fun id hp first hf hb => ?_, fun _ => hbody hin⟩
    · rcases hid id hp with heq | hp
      · exact ⟨departure, hlast, heq.symm⟩
      · obtain ⟨first, hf, heq⟩ := h.known id hp
        exact ⟨first, List.mem_append_left _ hf, heq⟩
    · rcases hid id hp with heq | hp
      · exact ⟨node, heq ▸ hnode, hstop⟩
      · obtain ⟨waiting, hwaiting, hends⟩ := h.ends id hp
        refine ⟨waiting, hwaiting, hleaves.lastStop_eq.trans (hsame.symm.trans hends)⟩
    · rcases hid id hp with heq | hp
      · rw [houter first hf (heq ▸ hb)]
        exact hself
      · rcases List.mem_append.mp hf with hf | hf
        · exact hin' _ (h.around id hp first hf hb)
        · rw [List.mem_singleton.mp hf]
          exact hself
  · have hzero : departure.depth = 0 := by
      rw [← hdepth]
      exact Nat.eq_zero_of_not_pos hout
    exact .of_nil (hsame.trans (h.pending_eq_nil hsplit hzero hnode (hshape ▸ hblock)))

end Waiting

/-- A node that the nodes that wait may flag waits itself, or is above one that does. -/
theorem Waiting.implicates_cases (h : Waiting tree left state) (hwf : tree'.WellFormed)
    (hcontinues : tree.Continues tree') (hserves : Serves log tree' state) {other : NodeId}
    (himplicates : Implicates tree' state other) : ∃ id ∈ state.pending, ∃ node,
      tree.node? id = some node ∧ state.lastStop = some node.span.stop ∧
      (other = id ∧ log.InsertsAt node.span ∨
        (∃ child, tree'.parent? child = some other) ∧ tree.Below other id ∧
          ∃ edit ∈ log.insertions, edit.anchor + 1 = node.span.stop) := by
  obtain ⟨id, hid, node', hnode', hcases⟩ := himplicates
  obtain ⟨node, hnode, hends⟩ := h.ends id hid
  obtain ⟨found, hfound, hres⟩ := hcontinues.keeps.resembles id node hnode
  obtain rfl := Option.some.inj (hnode'.symm.trans hfound)
  have hanchor {offset : Nat} (ho : offset ∈ state.offers.map (·.offset)) :
      ∃ edit ∈ log.insertions, edit.anchor = offset := by
    rw [hserves.offsets_eq] at ho
    exact mem_offsets_ofLog.mp ho
  refine ⟨id, hid, node, hnode, hends, ?_⟩
  rw [hres.span_eq] at hcases
  rcases hcases with ⟨rfl, offset, ho, hat⟩ | ⟨haround, offset, ho, hat⟩
  · left
    obtain ⟨edit, he, rfl⟩ := hanchor ho
    exact ⟨rfl, edit, he, hat⟩
  · right
    obtain ⟨edit, he, rfl⟩ := hanchor ho
    have hmem : other ∈ tree'.ancestors id :=
      throughFirst_subset _ _ (List.mem_toFinset.mp haround)
    obtain ⟨child, hup, hparent⟩ :=
      Relation.TransGen.tail'_iff.mp (hwf.mem_ancestors_iff.mp hmem)
    have hbelow : tree'.Below other id := hup.tail hparent
    exact ⟨⟨child, hparent⟩, hcontinues.below (Tree.lt_size_of_node? hnode) hbelow, edit, he, hat⟩

/-- A node that has been left, and that those that wait may flag, has an insertion at its end or
inside. -/
theorem Waiting.insertsAt (h : Waiting tree left state) (hwf : tree'.WellFormed)
    (hcontinues : tree.Continues tree') (hserves : Serves log tree' state) {first : Departure}
    (hfirst : first ∈ left) (himplicates : Implicates tree' state first.id) :
    ∃ node, tree.node? first.id = some node ∧ log.InsertsAt node.span := by
  obtain ⟨id, hid, node, hnode, hends, ⟨heq, hinserts⟩ | ⟨-, hbelow, edit, he, hat⟩⟩ :=
    h.implicates_cases hwf hcontinues hserves himplicates
  · exact ⟨node, heq ▸ hnode, hinserts⟩
  · obtain ⟨outer, houter, hends'⟩ := h.ends first.id (h.around id hid first hfirst hbelow)
    have hstop : node.span.stop = outer.span.stop := Option.some.inj (hends.symm.trans hends')
    exact ⟨outer, houter, edit, he, .inl (hat.trans hstop)⟩

/-- Where repairs have left their shapes, when the nodes of the list have been left. -/
structure Leftovers (log : EditLog) (tree : Tree) (left : List Departure) (tree' : Tree)
    (state : Attribution) : Prop where
  continues : tree.Continues tree'
  waiting : Waiting tree left state
  statements : ∀ first ∈ left, ∀ expression,
    tree'.DanglingAssignment first.id expression → tree.MayKeepAssignment log first.id expression
  declarations : ∀ first ∈ left, ∀ value,
    tree'.DanglingInitializer first.id value → tree.MayKeepInitializer log first.id value

theorem Leftovers.depart (h : Leftovers log tree left tree' state) (hwf : tree.WellFormed)
    (hroot : ∀ id ∈ tree.root, id < tree.size)
    (hsplit : tree.departures log = left ++ departure :: rest)
    (hreached : Reached log tree left tree' state)
    (hdepart : Attribution.depart (tree', state) departure = some (tree'', state')) :
    Leftovers log tree (left ++ [departure]) tree'' state' := by
  obtain ⟨node', marked, hnode', hleaves, hrepair⟩ := hreached.leaves hdepart
  obtain ⟨flagged, hflagged, -, hshape, -⟩ := Tree.node?_markAll_of_node? marked hnode'
  rw [← hshape] at hrepair
  have hmarked : (tree'.markAll marked).WellFormed :=
    hreached.wellFormed.congr_skeleton Tree.skeleton_markAll
  have hflags := h.continues.trans (Tree.continues_markAll tree' marked)
  have hcontinues :=
    hflags.trans ((Tree.repair_rewrites hmarked hflagged hrepair).continues hmarked)
  have hlt : ∀ first ∈ left ++ [departure], first.id < tree.size := by
    intro first hf
    apply Tree.lt_size_of_mem_departures hwf hroot
    rw [hsplit]
    rcases List.mem_append.mp hf with hf | hf
    · exact List.mem_append_left _ hf
    · exact List.mem_append_right _ (List.mem_singleton.mp hf ▸ List.mem_cons_self)
  have hlt' : ∀ first ∈ left ++ [departure], first.id < (tree'.markAll marked).size :=
    fun first hf => Nat.lt_of_lt_of_le (hlt first hf) hflags.keeps.size_le
  have hearlier : ∀ first ∈ left ++ [departure], first.id ≠ departure.id → first ∈ left := by
    intro first hf hne
    rcases List.mem_append.mp hf with hf | hf
    · exact hf
    · exact absurd (congrArg Departure.id (List.mem_singleton.mp hf)) hne
  have himplicated : ∀ other ∈ marked, other ≠ departure.id → Implicates tree' state other :=
    fun other ho hne => (hleaves.implicated other ho).resolve_left hne
  constructor
  · exact hcontinues
  · obtain ⟨node, hnode⟩ := Tree.node?_of_lt_size
      (hlt departure (List.mem_append_right _ List.mem_cons_self))
    obtain ⟨found, hfound, hres⟩ := h.continues.keeps.resembles _ node hnode
    obtain rfl := Option.some.inj (hnode'.symm.trans hfound)
    exact h.waiting.depart hwf hsplit hnode hres.shape_eq hres.span_eq hleaves
  · intro first hf expression hd
    obtain ⟨inner, _, _, _, hinner, hkind, -⟩ := hd.assignment
    have hassign : inner.shape = .assignment := congrArg NodeKind.shape hkind
    obtain ⟨known, hknown, -⟩ :=
      hcontinues.keeps.of_node? hinner (.inl (by rw [hassign]; decide))
    rcases hd.of_repair hmarked hflagged hrepair (hlt' first hf) with ⟨hne, hd⟩ | hl | hl
    · have hleft := hearlier first hf hne
      rcases hd.of_markAll with hd | hin
      · exact h.statements first hleft expression hd
      · exact .inl (h.waiting.insertsAt hreached.wellFormed h.continues hreached.serves hleft
          (himplicated first.id hin hne))
    · exact .inr (.inl (hflags.onLeftSide (hlt first hf) hl))
    · exact .inr (.inr (hflags.onLeftSide (Tree.lt_size_of_node? hknown) hl))
  · intro first hf value hd
    obtain ⟨hne, hd⟩ := hd.of_repair hmarked hflagged hrepair (hlt' first hf)
    have hleft := hearlier first hf hne
    rcases hd.of_markAll with hd' | hin
    · exact h.declarations first hleft value hd'
    · -- The value has waited, and its declaration, which is above it, with it.
      have hmissing : (tree'.markAll marked).IsMissing value := by
        obtain ⟨_, _, _, _, -, -, -, hdangling⟩ := hd
        obtain ⟨name, hname, -, hmissing⟩ := hdangling.value
        exact ⟨name, hname, hmissing⟩
      have hvalue : value < tree.size := by
        obtain ⟨name, hname, hmissing⟩ := hmissing
        obtain ⟨known, hknown, -⟩ := hflags.keeps.of_node? hname (.inr hmissing)
        exact Tree.lt_size_of_node? hknown
      have hbelow : tree.Below first.id value := hflags.below hvalue (hd.below hmarked)
      have hne' : value ≠ departure.id := by
        rintro rfl
        have hpairwise := Tree.pairwise_departures hwf log
        rw [hsplit, List.pairwise_append] at hpairwise
        exact hpairwise.2.2 first hleft departure List.mem_cons_self hbelow
      obtain ⟨id, hid, name, hname, hends, ⟨heq, hinserts⟩ | ⟨⟨child, hp⟩, -⟩⟩ :=
        h.waiting.implicates_cases hreached.wellFormed h.continues hreached.serves
          (himplicated value hin hne')
      · subst heq
        obtain ⟨statement, hstatement, hends'⟩ :=
          h.waiting.ends first.id (h.waiting.around value hid first hleft hbelow)
        exact ⟨statement, name, hstatement, hname, Option.some.inj (hends.symm.trans hends'),
          hinserts⟩
      · have hp' : (tree'.markAll marked).parent? child = some value :=
          Tree.parent?_markAll.trans hp
        exact absurd hp' (Tree.not_parent_of_isMissing hmarked hmissing)

end Attribution

/-- Propagation comes to an end. Among the nodes that it leaves it keeps recovered statements `x =
<missing>;` only where an insertion comes to the statement or where assignments are left sides, and
missing recovered initializers only where an insertion comes to the end of their declaration. -/
theorem propagate_leftovers {tree : Tree} (hwf : tree.WellFormed)
    (hroot : ∀ id ∈ tree.root, id < tree.size) (diagnostics : List Diagnostic) (log : EditLog) :
    ∃ tree' diagnostics', propagate tree diagnostics log = some (tree', diagnostics') ∧
      ∀ departure ∈ tree.departures log,
        (∀ expression, tree'.DanglingAssignment departure.id expression →
          tree.MayKeepAssignment log departure.id expression) ∧
        ∀ value, tree'.DanglingInitializer departure.id value →
          tree.MayKeepInitializer log departure.id value := by
  have hstart : Attribution.Leftovers log tree [] tree (.start log diagnostics) := by
    constructor
    · exact .refl tree
    · exact .start
    · intro first hf
      cases hf
    · intro first hf
      cases hf
  obtain ⟨tree', state, hrun, -, hend⟩ := Attribution.foldlM_depart_induction hwf hroot hstart
    fun hsplit hreached h hdepart => h.depart hwf hroot hsplit hreached hdepart
  refine ⟨tree', state.concerns.map (·.diagnostic), ?_, fun departure hd => ?_⟩
  · rw [propagate_eq_foldlM hwf hroot, hrun]
    rfl
  · exact ⟨hend.statements departure hd, hend.declarations departure hd⟩

/-- A block with the declaration `int x =`. -/
def openDeclaration : Tree where
  nodes := #[⟨⟨.primitiveType, (.intType, ())⟩, ⟨2, 5⟩, .parsed, some 4⟩,
    ⟨.simpleName "x", ⟨6, 7⟩, .parsed, some 3⟩,
    ⟨.simpleName "$missing$", ⟨9, 9⟩, .parsed, some 3⟩,
    ⟨⟨.variableDeclarationFragment, (1, some 2, ())⟩, ⟨6, 9⟩, .parsed, some 4⟩,
    ⟨⟨.variableDeclarationStatement, (0, [3], ())⟩, ⟨2, 9⟩, .parsed, some 5⟩,
    ⟨⟨.block, ([4], ())⟩, ⟨0, 11⟩, .parsed, none⟩]
  root := some 5

/-- Completes the declaration with an initializer and its end. -/
def initializerTokens : EditLog where
  insertions := [⟨.identifier, [.semicolon], 8, none, false⟩]

/-- The declaration with its initializer and itself flagged. -/
def flaggedDeclaration : Tree where
  nodes := #[⟨⟨.primitiveType, (.intType, ())⟩, ⟨2, 5⟩, .parsed, some 4⟩,
    ⟨.simpleName "x", ⟨6, 7⟩, .parsed, some 3⟩,
    ⟨.simpleName "$missing$", ⟨9, 9⟩, .union .parsed .recovered, some 3⟩,
    ⟨⟨.variableDeclarationFragment, (1, some 2, ())⟩, ⟨6, 9⟩, .parsed, some 4⟩,
    ⟨⟨.variableDeclarationStatement, (0, [3], ())⟩, ⟨2, 9⟩, .union .parsed .recovered, some 5⟩,
    ⟨⟨.block, ([4], ())⟩, ⟨0, 11⟩, .parsed, none⟩]
  root := some 5

theorem danglingInitializer_flaggedDeclaration : flaggedDeclaration.DanglingInitializer 4 2 :=
  ⟨_, 0, [3], 3, rfl, rfl, List.mem_cons_self, ⟨_, 1, rfl, rfl, by decide⟩, _,
    rfl, by decide, by decide⟩

/-- The insertion comes to the declaration after its repair, as the theorem says. -/
theorem propagate_leftovers_openDeclaration : openDeclaration.WellFormed ∧
    openDeclaration.MayKeepInitializer initializerTokens 4 2 := by
  have hlink : Tree.link openDeclaration.nodes openDeclaration.root = .ok openDeclaration := by
    decide +kernel
  have hwf := Tree.wellFormed_of_link hlink
  have hmem : (⟨4, 1⟩ : Departure) ∈ openDeclaration.departures initializerTokens := by
    decide +kernel
  have hrun : propagate openDeclaration [] initializerTokens = some (flaggedDeclaration, []) := by
    decide +kernel
  obtain ⟨tree', diagnostics', hpropagate, hkeeps⟩ :=
    propagate_leftovers hwf (Tree.root_lt_size_of_link hlink) [] initializerTokens
  obtain ⟨rfl, -⟩ := Prod.mk.inj (Option.some.inj (hrun.symm.trans hpropagate))
  exact ⟨hwf, (hkeeps _ hmem).2 2 danglingInitializer_flaggedDeclaration⟩

/-- A missing initializer that has been flagged stays in its declaration, which the walk has
left. -/
theorem initializer_kept_openDeclaration : openDeclaration.WellFormed ∧
    (⟨4, 1⟩ : Departure) ∈ openDeclaration.departures initializerTokens ∧ ∃ tree',
      propagate openDeclaration [] initializerTokens = some (tree', []) ∧ tree'.root = some 5 ∧
        tree'.Below 5 4 ∧ tree'.DanglingInitializer 4 2 := by
  have hlink : Tree.link openDeclaration.nodes openDeclaration.root = .ok openDeclaration := by
    decide +kernel
  have hrun : propagate openDeclaration [] initializerTokens = some (flaggedDeclaration, []) := by
    decide +kernel
  have hbelow : flaggedDeclaration.Below 5 4 := .step rfl .refl
  exact ⟨Tree.wellFormed_of_link hlink, by decide +kernel, flaggedDeclaration, hrun, rfl, hbelow,
    danglingInitializer_flaggedDeclaration⟩

end SyntaxRecovery
