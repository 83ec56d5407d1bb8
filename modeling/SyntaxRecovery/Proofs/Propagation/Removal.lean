import SyntaxRecovery.Proofs.Propagation.Idioms

/-! How far a repair reaches. Nodes that are not below its node stay as they are, new nodes come
where nothing leads to them, and of the nodes below only those are cut off that the repair is
for. -/
namespace SyntaxRecovery

/-- What is taken out of a fragment is not its name. -/
theorem NodeKind.of_take_fragment {kind : NodeKind} {child name : NodeId}
    {initializer : Option NodeId}
    (h : kind.take child = .taken ⟨.variableDeclarationFragment, (name, initializer, ())⟩) :
    ∃ earlier, kind = ⟨.variableDeclarationFragment, (name, earlier, ())⟩ := by
  obtain ⟨shape, values⟩ := kind
  obtain rfl : NodeShape.variableDeclarationFragment = shape := NodeKind.shape_of_take h
  obtain ⟨name', initializer', ⟨⟩⟩ := values
  refine ⟨initializer', ?_⟩
  by_cases hname : name' = child
  · simp only [NodeKind.take, Record.take, NodeShape.fields, FieldType.take, if_pos hname] at h
    cases h
  · by_cases hinitializer : initializer' = some child
    · simp only [NodeKind.take, Record.take, NodeShape.fields, FieldType.take, if_neg hname,
        if_pos hinitializer] at h
      cases h
      rfl
    · simp only [NodeKind.take, Record.take, NodeShape.fields, FieldType.take, if_neg hname,
        if_neg hinitializer] at h
      cases h

namespace Tree
variable {tree tree' tree₁ : Tree} {id parent child other top fragment : NodeId} {node node' : Node}

theorem Spare.lt_size (h : tree.Spare id child) : child < tree.size := by
  cases h with
  | name h =>
    obtain ⟨node, hnode, -⟩ := h
    exact lt_size_of_node? hnode
  | fragment _ _ hmissing =>
    obtain ⟨node, -, -, hnode, -⟩ := hmissing
    exact lt_size_of_node? hnode
  | declaration h _ _ =>
    obtain ⟨-, node, -, hnode, -⟩ := h
    exact lt_size_of_node? hnode

theorem Clears.lt_size (h : tree.Clears id parent) : parent < tree.size := by
  obtain ⟨node, hnode, -⟩ := h
  exact lt_size_of_node? hnode

theorem Clears.below (h : tree.Clears id parent) : tree.Below id parent := by
  obtain ⟨node, -, ⟨rfl, -⟩ | ⟨hp, -⟩⟩ := h
  · exact .refl
  · exact .step hp .refl

theorem node?_addFlags_of_ne {flags : NodeFlags} (h : id ≠ other) :
    (tree.addFlags id flags).node? other = tree.node? other := by
  rw [addFlags, node?_modify, if_neg h]

/-- Nothing is below a name. -/
theorem IsMissing.eq_of_below (h : tree.IsMissing top) (hwf : tree.WellFormed)
    (hbelow : tree.Below top other) : other = top := by
  rcases Relation.ReflTransGen.cases_tail hbelow with heq | ⟨child, -, hparent⟩
  · exact heq.symm
  · exact absurd hparent (not_parent_of_isMissing hwf h)

/-- What a repair of `id` cuts off: what is below a child taken out of its slot, or an assignment
without a right side, but not what it assigns to. -/
def CutsOff (tree : Tree) (id other : NodeId) : Prop :=
  (∃ child, tree.Spare id child ∧ tree.Below child other) ∨
    tree.parent? other = some id ∧ ∃ node left operator right, tree.node? other = some node ∧
      node.kind = ⟨.assignment, (left, operator, right, ())⟩ ∧ tree.IsMissing right

/-- A cut takes away what is below the child, and nothing else. -/
theorem below_cut (h : tree.Below top other) (kind : NodeKind) :
    ((tree.setKind parent kind).setParent child none).Below top other ∨ tree.Below child other := by
  induction h using Relation.ReflTransGen.head_induction_on with
  | refl => exact .inl .refl
  | @head start next hp hrest ih =>
    rcases ih with hup | hup
    · by_cases heq : start = child
      · exact .inr (heq ▸ .refl)
      · refine .inl (.step ?_ hup)
        rw [parent?_cut, if_neg heq]
        exact hp
    · exact .inr (.step hp hup)

section Collapse
variable {expression left right : NodeId} {operator : AssignmentOperator} {statement inner : Node}
  (ha : tree.Assigns id expression left right operator statement inner)
  (hc : tree.Collapses tree' id expression left right operator)
include ha hc

/-- The way up from the statement stays. -/
theorem Collapses.below_of_above (hup : tree.Below other id) (h : tree.Below top other) :
    tree'.Below top other := by
  induction h using Relation.ReflTransGen.head_induction_on with
  | refl => exact .refl
  | @head start next hp _ ih =>
    have hne {below : NodeId} (hb : tree.Below expression below) : start ≠ below := by
      rintro rfl
      exact Below.not_parent ha.wellFormed ha.parent?_expression (hup.trans hb)
    have hleft : start ≠ left := hne (.step ha.parent?_left .refl)
    have hright : start ≠ right := hne (.step ha.parent?_right .refl)
    refine .step ?_ (ih (hup.of_parent hp))
    rw [hc.parent?_eq (lt_size_of_parent? hp), if_neg hleft,
      if_neg (not_or.mpr ⟨hne .refl, hright⟩)]
    exact hp

/-- Only the assignment and its right side are cut off. -/
theorem Collapses.below (htop : tree.Below top id) (h : tree.Below top other) :
    tree'.Below top other ∨ other = expression ∨ tree.Below right other := by
  have hstatement : tree'.Below top id := hc.below_of_above ha .refl htop
  induction h using Relation.ReflTransGen.head_induction_on with
  | refl => exact .inl .refl
  | @head start next hp _ ih =>
    have hlinks := hc.parent?_eq (lt_size_of_parent? hp)
    by_cases hleft : start = left
    · rw [if_pos hleft] at hlinks
      exact .inl (.step hlinks hstatement)
    · rw [if_neg hleft] at hlinks
      by_cases he : start = expression
      · exact .inr (.inl he)
      · by_cases hr : start = right
        · exact .inr (.inr (hr ▸ .refl))
        · rw [if_neg (not_or.mpr ⟨he, hr⟩), hp] at hlinks
          rcases ih with hup | heq | hup
          · exact .inl (.step hlinks hup)
          · -- The children of the assignment are its two sides.
            have hmem := (ha.wellFormed.linked next start).mpr hp
            rw [heq, children_of_node? ha.inner_eq, ha.children_inner] at hmem
            simp [hleft, hr] at hmem
          · exact .inr (.inr (.step hp hup))

end Collapse

namespace Rewrites

/-- Nodes that are not below the node of the repair stay as they are. -/
theorem node?_eq_of_not_below (h : Rewrites tree id tree') (hwf : tree.WellFormed)
    (ho : other < tree.size) (hnot : ¬ tree.Below id other) :
    tree'.node? other = tree.node? other := by
  have hne {below : NodeId} (hb : tree.Below id below) : other ≠ below := fun heq =>
    hnot (heq ▸ hb)
  induction h with
  | refl => rfl
  | @remove tree₁ tree₂ parent child hrewrites hparent hchild hr ih =>
    have hattached := (removeChild_unlinks (hrewrites.wellFormed hwf) hr).attached
    have hbelow := hrewrites.below_of_parent? hchild.lt_size hattached
    obtain ⟨holder, rest, -, -, -, rfl⟩ := removeChild_cases hr
    rw [node?_cut, ih]
    cases tree.node? other with
    | none => rfl
    | some node =>
      rw [Option.map_some, if_neg (hne hparent.below), if_neg (hne (hbelow.trans hparent.below))]
  | flag _ _ _ hbelow ih => rw [node?_addFlags_of_ne (hne hbelow).symm, ih]
  | @collapse tree₁ expression left right operator statement inner ha _ _ _ hc _ =>
    have hexpression : tree.Below id expression := .step ha.parent?_expression .refl
    have hleft := hne (.step ha.parent?_left hexpression)
    have hright := hne (.step ha.parent?_right hexpression)
    have hexpression' := hne hexpression
    rw [node?_addFlags_of_ne hleft.symm, hc.node?_eq other ho]
    cases tree.node? other with
    | none => rfl
    | some node =>
      rw [Option.map_some, if_neg (hne .refl), if_neg hexpression', if_neg hleft,
        if_neg (not_or.mpr ⟨hexpression', hright⟩)]

/-- A new node stands for a child of an assignment that has been cut off. -/
theorem fresh (h : Rewrites tree id tree') (ho : tree.size ≤ other)
    (hnode' : tree'.node? other = some node') : ∃ offset holder,
      node' = { Node.placeholder offset with parent := some holder } ∧
        tree.parent? holder = some id ∧ tree'.parent? holder = none := by
  induction h generalizing node' with
  | refl => exact absurd (lt_size_of_node? hnode') (Nat.not_lt_of_le ho)
  | @remove tree₁ tree₂ parent child _ hparent hchild hr ih =>
    obtain ⟨-, rest, -, -, -, rfl⟩ := removeChild_cases hr
    have hne {below : NodeId} (hlt : below < tree.size) : other ≠ below :=
      (Nat.ne_of_lt (Nat.lt_of_lt_of_le hlt ho)).symm
    rw [node?_cut] at hnode'
    obtain ⟨node₁, hnode₁, hlast⟩ := Option.map_eq_some_iff.mp hnode'
    rw [if_neg (hne hparent.lt_size), if_neg (hne hchild.lt_size)] at hlast
    obtain ⟨offset, holder, hnew, hholder, hcut⟩ := ih hnode₁
    refine ⟨offset, holder, hlast ▸ hnew, hholder, ?_⟩
    rw [parent?_cut, hcut, ite_self]
  | flag _ hknown _ _ ih =>
    have hne := Nat.ne_of_lt (Nat.lt_of_lt_of_le (lt_size_of_node? hknown) ho)
    rw [node?_addFlags_of_ne hne] at hnode'
    obtain ⟨offset, holder, hnew, hholder, hcut⟩ := ih hnode'
    refine ⟨offset, holder, hnew, hholder, ?_⟩
    rw [parent?_congr (congrFun (skeleton_addFlags _ _ _) holder), hcut]
  | @collapse tree₁ expression left right operator statement inner ha _ _ _ hc _ =>
    have hleft := Nat.lt_of_lt_of_le (lt_size_of_parent? ha.parent?_left) ho
    rw [node?_addFlags_of_ne (Nat.ne_of_lt hleft)] at hnode'
    obtain ⟨offset, rfl⟩ := hc.fresh other node' ho hnode'
    refine ⟨offset, expression, rfl, ha.parent?_expression, ?_⟩
    have hne : expression ≠ left := (ha.wellFormed.ne_of_parent? ha.parent?_left).symm
    rw [parent?_congr (congrFun (skeleton_addFlags _ _ _) expression),
      hc.parent?_eq (lt_size_of_node? ha.inner_eq), if_neg hne, if_pos (.inl rfl)]

/-- Nothing leads to a new node from above the repair. -/
theorem not_below_fresh (h : Rewrites tree id tree') (hwf : tree.WellFormed)
    (htop : tree.Below top id)
    (hid : id < tree.size) (ho : tree.size ≤ other) (hnode' : tree'.node? other = some node') :
    ¬ tree'.Below top other := by
  intro hbelow
  obtain ⟨offset, holder, hnew, hholder, hcut⟩ := h.fresh ho hnode'
  have hparent : tree'.parent? other = some holder := by
    rw [Tree.parent?, hnode', hnew]
    rfl
  have hlt : top < tree.size := by
    rcases Relation.ReflTransGen.cases_tail htop with heq | ⟨next, -, hlast⟩
    · exact heq ▸ hid
    · exact hwf.parent_lt_size hlast
  have hne : other ≠ top := (Nat.ne_of_lt (Nat.lt_of_lt_of_le hlt ho)).symm
  rcases Relation.ReflTransGen.cases_head (hbelow.parent_of_ne hne hparent) with heq | ⟨next, hp, -⟩
  · exact Below.not_parent hwf hholder (heq ▸ htop)
  · rw [hcut] at hp
    cases hp

/-- What has been below a node above the repair is below it still, unless it has been cut off. -/
theorem below_or_cutsOff (h : Rewrites tree id tree') (hwf : tree.WellFormed)
    (htop : tree.Below top id) (ho : other < tree.size) (hbelow : tree.Below top other) :
    tree'.Below top other ∨ tree.CutsOff id other := by
  induction h with
  | refl => exact .inl hbelow
  | @remove tree₁ tree₂ parent child hrewrites _ hchild hr ih =>
    refine ih.elim (fun hup => ?_) .inr
    obtain ⟨-, rest, -, -, -, rfl⟩ := removeChild_cases hr
    refine (below_cut hup rest).imp_right fun hdown => ?_
    exact .inl ⟨child, hchild, hrewrites.of_below hwf ho hdown⟩
  | @flag tree₁ flagged _ _ _ _ _ ih =>
    refine ih.imp_left fun hup => Relation.ReflTransGen.mono (fun child parent hp => ?_) _ _ hup
    rwa [parent?_congr (congrFun (skeleton_addFlags _ _ _) child)]
  | @collapse tree₁ expression left right operator statement inner ha _ _ hright hc _ =>
    rcases hc.below ha htop hbelow with hup | rfl | hdown
    · refine .inl (Relation.ReflTransGen.mono (fun child parent hp => ?_) _ _ hup)
      rwa [parent?_congr (congrFun (skeleton_addFlags _ _ _) child)]
    · exact .inr (.inr ⟨ha.parent?_expression, inner, left, operator, right, ha.inner_eq,
        ha.inner_kind, hright⟩)
    · exact .inr (.inl ⟨right, .name hright, hdown⟩)

theorem of_declaresMissing (h : Rewrites tree id tree') (hd : tree'.DeclaresMissing fragment) :
    tree.DeclaresMissing fragment := by
  induction h with
  | refl => exact hd
  | @remove tree₁ tree₂ parent child _ _ _ hr ih =>
    obtain ⟨node, name, initializer, hnode, hkind, hname⟩ := hd
    have hname' := (keeps_removeChild hr).of_isMissing hname
    obtain ⟨holder, rest, hholder, -, htake, rfl⟩ := removeChild_cases hr
    obtain ⟨node₁, hnode₁, -, hsame⟩ := of_node?_cut hnode
    rw [hkind] at hsame
    split at hsame
    · next heq =>
      rw [← hsame] at htake
      obtain ⟨earlier, hearlier⟩ := NodeKind.of_take_fragment htake
      exact ih ⟨holder, name, earlier, heq ▸ hholder, hearlier, hname'⟩
    · exact ih ⟨node₁, name, initializer, hnode₁, hsame.symm, hname'⟩
  | @flag tree₁ flagged _ _ _ _ _ ih =>
    obtain ⟨node, name, initializer, hnode, hkind, hname⟩ := hd
    obtain ⟨node₁, hnode₁, hsame, -⟩ := of_node?_addFlags hnode
    exact ih ⟨node₁, name, initializer, hnode₁, hsame ▸ hkind,
      (keeps_addFlags tree₁ flagged).of_isMissing hname⟩
  | @collapse tree₁ expression left right operator statement inner ha hfree hfree' _ hc _ =>
    obtain ⟨node, name, initializer, hnode, hkind, hname⟩ := hd
    have hkeeps := (hc.keeps ha hfree hfree').trans (keeps_addFlags tree₁ left)
    have hshape : node.shape = .variableDeclarationFragment := congrArg NodeKind.shape hkind
    obtain ⟨first, hfirst, hres⟩ := hkeeps.of_node? hnode (.inl (by rw [hshape]; decide))
    obtain ⟨node₁, hnode₁, hsame, -⟩ := of_node?_addFlags hnode
    have hkinds := (hc.of_node? hfirst hnode₁).2
    rw [← hsame, hkind] at hkinds
    refine ⟨first, name, initializer, hfirst, ?_, hkeeps.of_isMissing hname⟩
    split at hkinds
    · cases congrArg NodeKind.shape hkinds
    · split at hkinds
      · cases congrArg NodeKind.shape hkinds
      · exact hkinds.symm

end Rewrites
end Tree
end SyntaxRecovery
