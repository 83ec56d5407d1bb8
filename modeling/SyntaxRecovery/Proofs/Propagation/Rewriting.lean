import SyntaxRecovery.Proofs.Propagation.Collapse

/-! What a repair may do, change by change, and what follows from it. A repair changes the children
of its node and of the children of that node only. Nodes that it moves go up, and those that it
flags are left sides of assignments, declarations and annotations. -/
namespace SyntaxRecovery

/-- Shapes that a repair may flag for what it finds in them. -/
def NodeShape.isSuspect : NodeShape → Bool
  | .variableDeclarationExpression | .variableDeclarationFragment | .annotationNormal
  | .annotationSingle => true
  | _ => false

theorem NodeKind.children_of_simpleName {kind : NodeKind} (h : kind.shape = .simpleName) :
    kind.children = [] := by
  obtain ⟨shape, values⟩ := kind
  cases h
  rfl

theorem NodeKind.shape_of_take {kind rest : NodeKind} {child : NodeId}
    (h : kind.take child = .taken rest) : rest.shape = kind.shape :=
  NodeKind.shape_eq_of_blank (NodeKind.blank_of_take h)

namespace Tree
variable {tree tree' tree₁ : Tree} {id parent child other top : NodeId} {node node' : Node}

theorem removeChild_cases (h : tree.removeChild parent child = .ok tree') : ∃ holder rest,
    tree.node? parent = some holder ∧ holder.isProtected = false ∧
      holder.kind.take child = .taken rest ∧
      tree' = (tree.setKind parent rest).setParent child none := by
  simp only [removeChild, bind_eq_ok_iff, findUnprotected_eq_ok_iff] at h
  obtain ⟨holder, ⟨hholder, hfree⟩, -, -, h⟩ := h
  split at h
  · cases h
  · cases h
  · next rest htake =>
    cases h
    exact ⟨holder, rest, hholder, hfree, htake, rfl⟩

/-- A child whose slot may be emptied leaves a parent that may be changed. -/
theorem removeChild_eq_ok {holder inner : Node} {rest : NodeKind}
    (hholder : tree.node? parent = some holder) (hfree : holder.isProtected = false)
    (hinner : tree.node? child = some inner) (htake : holder.kind.take child = .taken rest) :
    tree.removeChild parent child = .ok ((tree.setKind parent rest).setParent child none) := by
  have hfind : tree.findUnprotected parent = .ok holder :=
    findUnprotected_eq_ok_iff.mpr ⟨hholder, hfree⟩
  simp only [removeChild, hfind, find_eq_ok_iff.mpr hinner, bind, Except.bind, htake]
  rfl

/-- Removing a child keeps what nodes are. -/
theorem keeps_removeChild (h : tree.removeChild parent child = .ok tree') : tree.Keeps tree' := by
  obtain ⟨holder, rest, hholder, hfree, htake, rfl⟩ := removeChild_cases h
  exact (keeps_setKind hholder (NodeKind.blank_of_take htake) hfree).trans
    (keeps_setParent _ child none)

theorem node?_cut (tree : Tree) (parent child : NodeId) (kind : NodeKind) (other : NodeId) :
    ((tree.setKind parent kind).setParent child none).node? other =
      (tree.node? other).map fun node => { node with
        kind := if other = parent then kind else node.kind
        parent := if other = child then none else node.parent } := by
  simp only [setParent, setKind, node?_modify]
  cases tree.node? other with
  | none => simp
  | some node => by_cases hc : child = other <;> by_cases hp : parent = other <;>
      simp [hc, hp, eq_comm]

theorem of_node?_cut {kind : NodeKind}
    (h : ((tree.setKind parent kind).setParent child none).node? other = some node') :
    ∃ node, tree.node? other = some node ∧ node'.flags = node.flags ∧
      node'.kind = if other = parent then kind else node.kind := by
  rw [node?_cut] at h
  obtain ⟨node, hnode, rfl⟩ := Option.map_eq_some_iff.mp h
  exact ⟨node, hnode, rfl, rfl⟩

theorem parent?_cut (tree : Tree) (parent child : NodeId) (kind : NodeKind) (other : NodeId) :
    ((tree.setKind parent kind).setParent child none).parent? other =
      if other = child then none else tree.parent? other := by
  rw [Tree.parent?, node?_cut, Tree.parent?]
  cases tree.node? other with
  | none => simp
  | some node => by_cases hc : other = child <;> simp [hc]

theorem Collapses.parent?_eq {expression left right : NodeId} {operator : AssignmentOperator}
    (h : tree.Collapses tree' id expression left right operator) (ho : other < tree.size) :
    tree'.parent? other = if other = left then some id
      else if other = expression ∨ other = right then none else tree.parent? other := by
  obtain ⟨node, hnode⟩ := node?_of_lt_size ho
  rw [Tree.parent?, h.node?_eq other ho, hnode, Tree.parent?, hnode]
  rfl

theorem Collapses.of_node? {expression left right : NodeId} {operator : AssignmentOperator}
    (h : tree.Collapses tree' id expression left right operator)
    (hnode : tree.node? other = some node)
    (hnode' : tree'.node? other = some node') : node'.flags = node.flags ∧ node'.kind =
      if other = id then ⟨.expressionStatement, (left, ())⟩
      else if other = expression then ⟨.assignment, (tree.size, operator, tree.size + 1, ())⟩
      else node.kind := by
  rw [h.node?_eq other (lt_size_of_node? hnode), hnode] at hnode'
  obtain rfl := Option.some.inj hnode'
  exact ⟨rfl, rfl⟩

/-- Flags change neither the children of a node nor any other node. -/
theorem of_node?_addFlags {flags : NodeFlags}
    (h : (tree.addFlags id flags).node? other = some node') :
    ∃ node, tree.node? other = some node ∧ node'.kind = node.kind ∧
      (id ≠ other → node' = node) := by
  rw [addFlags, node?_modify] at h
  split at h
  · next heq =>
    obtain ⟨node, hnode, rfl⟩ := Option.map_eq_some_iff.mp h
    exact ⟨node, hnode, rfl, fun hne => absurd heq hne⟩
  · exact ⟨node', h, rfl, fun _ => rfl⟩

/-- The node is a name that recovery made up. -/
def IsMissing (tree : Tree) (id : NodeId) : Prop :=
  ∃ node, tree.node? id = some node ∧ node.isMissingName = true

theorem Keeps.of_isMissing (h : tree.Keeps tree') (hmissing : tree'.IsMissing id) :
    tree.IsMissing id := by
  obtain ⟨other, hother, hname⟩ := hmissing
  obtain ⟨node, hnode, hres⟩ := h.of_node? hother (.inr hname)
  exact ⟨node, hnode, hres.isMissingName_eq.symm.trans hname⟩

/-- The fragment declares a variable under a name that recovery made up. -/
def DeclaresMissing (tree : Tree) (fragment : NodeId) : Prop :=
  ∃ node name initializer, tree.node? fragment = some node ∧
    node.kind = ⟨.variableDeclarationFragment, (name, initializer, ())⟩ ∧ tree.IsMissing name

/-- All that the header of the loop initializes is a declaration of the fragments. -/
def SoleDeclaration (tree : Tree) (loop declaration : NodeId) (fragments : List NodeId) : Prop :=
  (∃ node rest, tree.node? loop = some node ∧ node.kind = ⟨.forStatement, ([declaration], rest)⟩) ∧
    ∃ node type, tree.node? declaration = some node ∧
      node.kind = ⟨.variableDeclarationExpression, (type, fragments, ())⟩

/-- The children that a repair of `id` may take out of their slots. -/
inductive Spare (tree : Tree) (id : NodeId) : NodeId → Prop
  | name {child : NodeId} (h : tree.IsMissing child) : Spare tree id child
  | fragment {declaration fragment : NodeId} {fragments : List NodeId}
    (h : tree.SoleDeclaration id declaration fragments) (hmem : fragment ∈ fragments)
    (hmissing : tree.DeclaresMissing fragment) : Spare tree id fragment
  | declaration {declaration : NodeId} {fragments : List NodeId}
    (h : tree.SoleDeclaration id declaration fragments) (hne : fragments ≠ [])
    (hmissing : ∀ fragment ∈ fragments, tree.DeclaresMissing fragment) : Spare tree id declaration

/-- A node from which the repair at `id` may take children: a loop, or a declaration right below. -/
def Clears (tree : Tree) (id parent : NodeId) : Prop :=
  ∃ node, tree.node? parent = some node ∧ (parent = id ∧ node.shape = .forStatement ∨
    tree.parent? parent = some id ∧ (node.shape = .variableDeclarationExpression ∨
      node.shape = .variableDeclarationFragment))

/-- The node is the left side of an assignment. -/
def OnLeftSide (tree : Tree) (id : NodeId) : Prop :=
  ∃ holder node operator right, tree.node? holder = some node ∧
    node.kind = ⟨.assignment, (id, operator, right, ())⟩

/-- The trees that a repair of `id` may lead to. -/
inductive Rewrites (tree : Tree) (id : NodeId) : Tree → Prop
  | refl : Rewrites tree id tree
  | remove {tree₁ tree₂ : Tree} {parent child : NodeId} (h : Rewrites tree id tree₁)
    (hparent : tree.Clears id parent) (hchild : tree.Spare id child)
    (hr : tree₁.removeChild parent child = .ok tree₂) : Rewrites tree id tree₂
  | flag {tree₁ : Tree} {other : NodeId} {node : Node} (h : Rewrites tree id tree₁)
    (hnode : tree.node? other = some node) (hshape : node.shape.isSuspect = true)
    (hbelow : tree.Below id other) : Rewrites tree id (tree₁.addFlags other .recovered)
  | collapse {tree₁ : Tree} {expression left right : NodeId} {operator : AssignmentOperator}
    {statement inner : Node}
    (ha : tree.Assigns id expression left right operator statement inner)
    (hfree : statement.isProtected = false) (hfree' : inner.isProtected = false)
    (hright : tree.IsMissing right)
    (hc : tree.Collapses tree₁ id expression left right operator) (hwf : tree₁.WellFormed) :
    Rewrites tree id (tree₁.addFlags left .recovered)

namespace Rewrites

theorem keeps (h : Rewrites tree id tree') : tree.Keeps tree' := by
  induction h with
  | refl => exact .refl tree
  | remove _ _ _ hr ih => exact ih.trans (keeps_removeChild hr)
  | flag _ _ _ _ ih => exact ih.trans (keeps_addFlags _ _)
  | collapse ha hfree hfree' _ hc _ => exact (hc.keeps ha hfree hfree').trans (keeps_addFlags _ _)

theorem wellFormed (h : Rewrites tree id tree') (hwf : tree.WellFormed) : tree'.WellFormed := by
  induction h with
  | refl => exact hwf
  | remove _ _ _ hr ih => exact ih.unlinks (removeChild_unlinks ih hr)
  | flag _ _ _ _ ih => exact ih.congr_skeleton (skeleton_addFlags _ _ _)
  | collapse _ _ _ _ _ hwf' => exact hwf'.congr_skeleton (skeleton_addFlags _ _ _)

/-- Other children get only the node itself, if it is a statement or a loop, and its children among
the assignments and the declarations. -/
theorem kind_cases (h : Rewrites tree id tree') (hnode : tree.node? other = some node)
    (hnode' : tree'.node? other = some node') : node'.kind = node.kind ∨
      other = id ∧ (node.shape = .expressionStatement ∨ node.shape = .forStatement) ∨
      tree.parent? other = some id ∧ (node.shape = .assignment ∨
        node.shape = .variableDeclarationExpression ∨
          node.shape = .variableDeclarationFragment) := by
  induction h generalizing node' with
  | refl =>
    obtain rfl := Option.some.inj (hnode.symm.trans hnode')
    exact .inl rfl
  | @remove tree₁ tree₂ parent child _ hparent _ hr ih =>
    obtain ⟨holder, rest, hholder, -, htake, rfl⟩ := removeChild_cases hr
    obtain ⟨node₁, hnode₁, -, hkind⟩ := of_node?_cut hnode'
    rw [hkind]
    by_cases heq : other = parent
    · obtain ⟨known, hknown, hshape⟩ := hparent
      obtain rfl : known = node := Option.some.inj (hknown.symm.trans (heq ▸ hnode))
      rw [← heq] at hshape
      rcases hshape with ⟨hid, hs⟩ | ⟨hp, hs⟩
      · exact .inr (.inl ⟨hid, .inr hs⟩)
      · exact .inr (.inr ⟨hp, .inr hs⟩)
    · rw [if_neg heq]
      exact ih hnode₁
  | flag _ _ _ _ ih =>
    obtain ⟨node₁, hnode₁, hkind, -⟩ := of_node?_addFlags hnode'
    rw [hkind]
    exact ih hnode₁
  | @collapse tree₁ expression left right operator statement inner ha _ _ _ hc _ =>
    obtain ⟨node₁, hnode₁, hkind, -⟩ := of_node?_addFlags hnode'
    rw [hkind, (hc.of_node? hnode hnode₁).2]
    by_cases hid : other = id
    · subst hid
      obtain rfl := Option.some.inj (hnode.symm.trans ha.statement_eq)
      exact .inr (.inl ⟨rfl, .inl (congrArg NodeKind.shape ha.statement_kind)⟩)
    · by_cases he : other = expression
      · subst he
        obtain rfl := Option.some.inj (hnode.symm.trans ha.inner_eq)
        exact .inr (.inr ⟨ha.parent?_expression, .inl (congrArg NodeKind.shape ha.inner_kind)⟩)
      · rw [if_neg hid, if_neg he]
        exact .inl rfl

theorem kind_eq (h : Rewrites tree id tree') (hnode : tree.node? other = some node)
    (hnode' : tree'.node? other = some node')
    (hself : other = id → node.shape ≠ .expressionStatement ∧ node.shape ≠ .forStatement)
    (hchild : tree.parent? other = some id → node.shape ≠ .assignment ∧
      node.shape ≠ .variableDeclarationExpression ∧ node.shape ≠ .variableDeclarationFragment) :
    node'.kind = node.kind := by
  rcases h.kind_cases hnode hnode' with hsame | ⟨heq, hs | hs⟩ | ⟨hp, hs | hs | hs⟩
  · exact hsame
  · exact absurd hs (hself heq).1
  · exact absurd hs (hself heq).2
  · exact absurd hs (hchild hp).1
  · exact absurd hs (hchild hp).2.1
  · exact absurd hs (hchild hp).2.2

/-- What a repair flags was flagged, or is a left side or of a suspect shape. -/
theorem recovered_cases (h : Rewrites tree id tree') (hnode : tree.node? other = some node)
    (hnode' : tree'.node? other = some node') (hr : node'.isRecovered = true) :
    node.isRecovered = true ∨ tree.OnLeftSide other ∨ node.shape.isSuspect = true := by
  induction h generalizing node' with
  | refl =>
    obtain rfl := Option.some.inj (hnode.symm.trans hnode')
    exact .inl hr
  | remove _ _ _ hr' ih =>
    obtain ⟨holder, rest, -, -, -, rfl⟩ := removeChild_cases hr'
    obtain ⟨node₁, hnode₁, hflags, -⟩ := of_node?_cut hnode'
    rw [Node.isRecovered, hflags] at hr
    exact ih hnode₁ hr
  | @flag tree₁ flagged known _ hknown hshape _ ih =>
    obtain ⟨node₁, hnode₁, -, hsame⟩ := of_node?_addFlags hnode'
    by_cases heq : flagged = other
    · obtain rfl : known = node := Option.some.inj (hknown.symm.trans (heq ▸ hnode))
      exact .inr (.inr hshape)
    · rw [hsame heq] at hr
      exact ih hnode₁ hr
  | @collapse tree₁ expression left right operator statement inner ha _ _ _ hc _ =>
    obtain ⟨node₁, hnode₁, -, hsame⟩ := of_node?_addFlags hnode'
    by_cases heq : left = other
    · exact .inr (.inl ⟨expression, inner, operator, right, ha.inner_eq, heq ▸ ha.inner_kind⟩)
    · rw [hsame heq, Node.isRecovered, (hc.of_node? hnode hnode₁).1] at hr
      exact .inl hr

/-- A node goes no further than up. -/
theorem below_of_parent? (h : Rewrites tree id tree') (ho : other < tree.size)
    (hp : tree'.parent? other = some parent) : tree.Below parent other := by
  induction h with
  | refl => exact .step hp .refl
  | remove _ _ _ hr ih =>
    obtain ⟨holder, rest, -, -, -, rfl⟩ := removeChild_cases hr
    rw [parent?_cut, Option.ite_none_left_eq_some] at hp
    exact ih hp.2
  | flag _ _ _ _ ih =>
    rw [parent?_congr (congrFun (skeleton_addFlags _ _ _) other)] at hp
    exact ih hp
  | collapse ha _ _ _ hc _ =>
    rw [parent?_congr (congrFun (skeleton_addFlags _ _ _) other), hc.parent?_eq ho] at hp
    split at hp
    · next heq =>
      obtain rfl := Option.some.inj hp
      exact heq ▸ .step ha.parent?_left (.step ha.parent?_expression .refl)
    · rw [Option.ite_none_left_eq_some] at hp
      exact .step hp.2 .refl

/-- What is below a node was below it before. -/
theorem of_below (h : Rewrites tree id tree') (hwf : tree.WellFormed) (ho : other < tree.size)
    (hb : tree'.Below top other) : tree.Below top other := by
  revert ho
  induction hb using Relation.ReflTransGen.head_induction_on with
  | refl => exact fun _ => .refl
  | @head child parent hp _ ih =>
    intro hchild
    have hup := h.below_of_parent? hchild hp
    have hparent : parent < tree.size := by
      rcases Relation.ReflTransGen.cases_tail hup with heq | ⟨next, -, hlast⟩
      · exact heq ▸ hchild
      · exact hwf.parent_lt_size hlast
    exact hup.trans (ih hparent)

/-- The left side of an assignment stays there, unless a new name takes its place. -/
theorem onLeftSide (h : Rewrites tree id tree') (ho : other < tree.size)
    (hl : tree'.OnLeftSide other) : tree.OnLeftSide other := by
  induction h with
  | refl => exact hl
  | @remove tree₁ tree₂ parent child hrewrites hparent _ hr ih =>
    obtain ⟨holder, rest, hholder, -, htake, rfl⟩ := removeChild_cases hr
    obtain ⟨x, node, operator, right, hnode, hkind⟩ := hl
    obtain ⟨node₁, hnode₁, -, hsame⟩ := of_node?_cut hnode
    rw [hsame] at hkind
    by_cases heq : x = parent
    · -- What loses a child is no assignment.
      obtain ⟨known, hknown, hshape⟩ := hparent
      obtain ⟨next, hnext, hres⟩ := hrewrites.keeps.resembles parent known hknown
      obtain rfl := Option.some.inj (hholder.symm.trans hnext)
      have hassign : holder.shape = .assignment := by
        rw [if_pos heq] at hkind
        exact (NodeKind.shape_of_take htake).symm.trans (congrArg NodeKind.shape hkind)
      rw [← hres.shape_eq, hassign] at hshape
      rcases hshape with ⟨-, hs⟩ | ⟨-, hs | hs⟩ <;> cases hs
    · rw [if_neg heq] at hkind
      exact ih ⟨x, node₁, operator, right, hnode₁, hkind⟩
  | flag _ _ _ _ ih =>
    obtain ⟨x, node, operator, right, hnode, hkind⟩ := hl
    obtain ⟨node₁, hnode₁, hsame, -⟩ := of_node?_addFlags hnode
    exact ih ⟨x, node₁, operator, right, hnode₁, hsame ▸ hkind⟩
  | @collapse tree₁ expression left right operator statement inner ha _ _ _ hc _ =>
    obtain ⟨x, node, operator', right', hnode, hkind⟩ := hl
    obtain ⟨node₁, hnode₁, hsame, -⟩ := of_node?_addFlags hnode
    rw [hsame] at hkind
    by_cases hx : x < tree.size
    · obtain ⟨first, hfirst⟩ := node?_of_lt_size hx
      rw [(hc.of_node? hfirst hnode₁).2] at hkind
      by_cases hid : x = id
      · rw [if_pos hid] at hkind
        cases congrArg NodeKind.shape hkind
      · rw [if_neg hid] at hkind
        by_cases he : x = expression
        · rw [if_pos he] at hkind
          have hnew : tree.size = other := congrArg Prod.fst (eq_of_heq (NodeKind.mk.inj hkind).2)
          exact absurd hnew (Nat.ne_of_gt ho)
        · rw [if_neg he] at hkind
          exact ⟨x, first, operator', right', hfirst, hkind⟩
    · obtain ⟨offset, rfl⟩ := hc.fresh x node₁ (Nat.le_of_not_lt hx) hnode₁
      cases congrArg NodeKind.shape hkind

theorem attempt {changes : List (Tree → Except TreeError Tree)} (h : Rewrites tree id tree₁)
    (hc : ∀ change ∈ changes, ∀ {before after}, Rewrites tree id before →
      change before = .ok after → Rewrites tree id after) :
    Rewrites tree id (tree₁.attempt changes).1 := by
  induction changes generalizing tree₁ with
  | nil => exact h
  | cons change changes ih =>
    obtain ⟨hchange, hchanges⟩ := List.forall_mem_cons.mp hc
    unfold Tree.attempt
    split
    · next hok => exact ih (hchange h hok) hchanges
    · exact h

end Rewrites

end Tree
end SyntaxRecovery
