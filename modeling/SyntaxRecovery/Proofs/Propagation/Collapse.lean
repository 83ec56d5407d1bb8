import SyntaxRecovery.Proofs.Propagation.Keeping
import SyntaxRecovery.Proofs.Tree.Arena

/-! Collapsing an assignment without a right side. None of the three changes is refused in a
well-formed tree where neither the statement nor the assignment is protected. -/
namespace SyntaxRecovery

namespace NodeKind
variable (left right new : NodeId) (operator : AssignmentOperator)

theorem take_left :
    take ⟨.assignment, (left, operator, right, ())⟩ left = .mandatory := by
  simp only [take, Record.take, NodeShape.fields, FieldType.take, if_true]
  rfl

theorem swap?_left : swap? ⟨.assignment, (left, operator, right, ())⟩ left new =
    some ⟨.assignment, (new, operator, right, ())⟩ := by
  simp only [swap?, Record.swap?, NodeShape.fields, FieldType.swap?, if_true]
  rfl

variable {left right}

theorem take_right (h : left ≠ right) :
    take ⟨.assignment, (left, operator, right, ())⟩ right = .mandatory := by
  simp only [take, Record.take, NodeShape.fields, FieldType.take, if_neg h, if_true]
  rfl

theorem swap?_right (h : left ≠ right) :
    swap? ⟨.assignment, (left, operator, right, ())⟩ right new =
    some ⟨.assignment, (left, operator, new, ())⟩ := by
  simp only [swap?, Record.swap?, NodeShape.fields, FieldType.swap?, if_neg h, if_true]
  rfl

theorem swap?_expression (expression : NodeId) :
    swap? ⟨.expressionStatement, (expression, ())⟩ expression new =
      some ⟨.expressionStatement, (new, ())⟩ := by
  simp only [swap?, Record.swap?, NodeShape.fields, FieldType.swap?, if_true]
  rfl

end NodeKind

namespace Tree
variable {tree tree' : Tree} {id parent child : NodeId} {node : Node}

variable {old new expression left right : NodeId} {kind : NodeKind} {operator : AssignmentOperator}
  {holder statement inner : Node}

/-- The tree with a new name in the slot of `parent` that `child` leaves. -/
def vacate (tree : Tree) (parent child : NodeId) (kind : NodeKind) (offset : Nat) : Tree :=
  (((tree.placeholder offset).2.setKind parent kind).setParent tree.size (some parent)).setParent
    child none

/-- The tree with `new` in the slot of `parent` that `old` leaves. -/
def exchange (tree : Tree) (parent old new : NodeId) (kind : NodeKind) : Tree :=
  ((tree.setKind parent kind).setParent old none).setParent new (some parent)

theorem node?_vacate (hparent : parent < tree.size) (hchild : child < tree.size) (kind : NodeKind)
    (offset : Nat) (other : NodeId) : (tree.vacate parent child kind offset).node? other =
      if other = tree.size then some { Node.placeholder offset with parent := some parent }
      else (tree.node? other).map fun node => { node with
        kind := if other = parent then kind else node.kind
        parent := if other = child then none else node.parent } := by
  simp only [vacate, setParent, setKind, placeholder, node?_modify, node?_push]
  by_cases hsize : other = tree.size
  · have hp : parent ≠ other := fun h => Nat.ne_of_lt hparent (h.trans hsize)
    have hc : child ≠ other := fun h => Nat.ne_of_lt hchild (h.trans hsize)
    simp [hsize.symm, hp, hc]
  · simp only [if_neg hsize, if_neg (Ne.symm hsize)]
    cases tree.node? other with
    | none => simp
    | some node => by_cases hc : child = other <;> by_cases hp : parent = other <;>
        simp [hc, hp, eq_comm]

theorem node?_exchange (kind : NodeKind) (other : NodeId) :
    (tree.exchange parent old new kind).node? other =
      (tree.node? other).map fun node => { node with
        kind := if other = parent then kind else node.kind
        parent := if other = new then some parent
          else if other = old then none else node.parent } := by
  simp only [exchange, setParent, setKind, node?_modify]
  cases tree.node? other with
  | none => simp
  | some node => by_cases hn : new = other <;> by_cases ho : old = other <;>
      by_cases hp : parent = other <;> simp [hn, ho, hp, eq_comm]

/-- A child leaves a slot that must not be empty. -/
theorem detach_eq_vacate (hnode : tree.node? child = some node) (hlink : node.parent = some parent)
    (hholder : tree.node? parent = some holder) (hfree : holder.isProtected = false)
    (htake : holder.kind.take child = .mandatory)
    (hswap : holder.kind.swap? child tree.size = some kind) :
    tree.detach child = .ok (tree.vacate parent child kind node.span.start) := by
  have hfind : tree.find child = .ok node := find_eq_ok_iff.mpr hnode
  have hfind' : tree.findUnprotected parent = .ok holder :=
    findUnprotected_eq_ok_iff.mpr ⟨hholder, hfree⟩
  simp only [detach, hfind, bind, Except.bind, hlink, hfind', htake, placeholder, hswap]
  rfl

theorem replaceChild_eq_exchange (hholder : tree.node? parent = some holder)
    (hfree : holder.isProtected = false) (hnew : tree.node? new = some node)
    (hlink : node.parent = none) (hold : old < tree.size)
    (hapart : tree.isAncestorOrSelf new parent = false)
    (hswap : holder.kind.swap? old new = some kind) :
    tree.replaceChild parent old new = .ok (tree.exchange parent old new kind) := by
  obtain ⟨oldNode, hold⟩ := node?_of_lt_size hold
  have hfind : tree.find old = .ok oldNode := find_eq_ok_iff.mpr hold
  have hfind' : tree.findUnprotected parent = .ok holder :=
    findUnprotected_eq_ok_iff.mpr ⟨hholder, hfree⟩
  have hfind'' : tree.findDetached new = .ok node := findDetached_eq_ok_iff.mpr ⟨hnew, hlink⟩
  simp only [replaceChild, hfind, bind, Except.bind, hfind', hfind'', hapart, hswap]
  rfl

@[simp] theorem root_vacate (kind : NodeKind) (offset : Nat) :
    (tree.vacate parent child kind offset).root = tree.root := rfl

@[simp] theorem root_exchange (kind : NodeKind) :
    (tree.exchange parent old new kind).root = tree.root := rfl

@[simp] theorem size_vacate (kind : NodeKind) (offset : Nat) :
    (tree.vacate parent child kind offset).size = tree.size + 1 := by
  simp [vacate, placeholder]

@[simp] theorem size_exchange (kind : NodeKind) :
    (tree.exchange parent old new kind).size = tree.size := by
  simp [exchange]

section Steps
variable (tree : Tree) (id expression left right : NodeId) (operator : AssignmentOperator)
    (offset : Nat)

/-- The assignment loses its left side. -/
def cutLeft : Tree :=
  tree.vacate expression left ⟨.assignment, (tree.size, operator, right, ())⟩ offset

/-- The left side takes the place of the assignment. -/
def moveLeft : Tree :=
  (tree.cutLeft expression left right operator offset).exchange id expression left
  ⟨.expressionStatement, (left, ())⟩

/-- The assignment loses its right side, too. -/
def collapsed (offset' : Nat) : Tree :=
  (tree.moveLeft id expression left right operator offset).vacate expression right
    ⟨.assignment, (tree.size, operator, tree.size + 1, ())⟩ offset'

end Steps

/-- What collapsing the assignment `expression` of the statement `id` comes to. Its left side is the
expression of the statement now, and two new names fill the slots of the assignment. -/
structure Collapses (tree tree' : Tree) (id expression left right : NodeId)
    (operator : AssignmentOperator) : Prop where
  root_eq : tree'.root = tree.root
  size_eq : tree'.size = tree.size + 2
  node?_eq : ∀ other < tree.size, tree'.node? other = (tree.node? other).map fun node => { node with
    kind := if other = id then ⟨.expressionStatement, (left, ())⟩
      else if other = expression then ⟨.assignment, (tree.size, operator, tree.size + 1, ())⟩
      else node.kind
    parent := if other = left then some id
      else if other = expression ∨ other = right then none else node.parent }
  fresh : ∀ other node, tree.size ≤ other → tree'.node? other = some node →
    ∃ offset, node = { Node.placeholder offset with parent := some expression }

/-- A statement `x = y;` and its parts, in a well-formed tree. -/
structure Assigns (tree : Tree) (id expression left right : NodeId) (operator : AssignmentOperator)
    (statement inner : Node) : Prop where
  wellFormed : tree.WellFormed
  statement_eq : tree.node? id = some statement
  statement_kind : statement.kind = ⟨.expressionStatement, (expression, ())⟩
  inner_eq : tree.node? expression = some inner
  inner_kind : inner.kind = ⟨.assignment, (left, operator, right, ())⟩

namespace Assigns
variable (h : tree.Assigns id expression left right operator statement inner)
include h

theorem parent?_expression : tree.parent? expression = some id := by
  have hmem : expression ∈ statement.kind.children := by
    rw [h.statement_kind]
    exact List.mem_cons_self
  exact (mem_children_of_node? h.wellFormed h.statement_eq rfl hmem).1

theorem children_inner : inner.kind.children = [left, right] := by
  rw [h.inner_kind]
  rfl

theorem parent?_left : tree.parent? left = some expression :=
  (mem_children_of_node? h.wellFormed h.inner_eq h.children_inner (by simp)).1

theorem parent?_right : tree.parent? right = some expression :=
  (mem_children_of_node? h.wellFormed h.inner_eq h.children_inner (by simp)).1

theorem left_ne_right : left ≠ right := by
  have hnodup := h.wellFormed.nodup expression
  rw [children_of_node? h.inner_eq, h.children_inner] at hnodup
  simpa using hnodup

theorem left_ne_id : left ≠ id := fun heq =>
  Below.not_parent h.wellFormed h.parent?_left (heq ▸ .step h.parent?_expression .refl)

section Steps
variable (offset offset' : Nat)

theorem node?_cutLeft {other : NodeId} (ho : other < tree.size) :
    (tree.cutLeft expression left right operator offset).node? other =
      (tree.node? other).map fun node => { node with
        kind := if other = expression then ⟨.assignment, (tree.size, operator, right, ())⟩
          else node.kind
        parent := if other = left then none else node.parent } := by
  rw [cutLeft, node?_vacate (lt_size_of_node? h.inner_eq) (lt_size_of_parent? h.parent?_left),
    if_neg (Nat.ne_of_lt ho)]

theorem node?_moveLeft {other : NodeId} (ho : other < tree.size) :
    (tree.moveLeft id expression left right operator offset).node? other =
      (tree.node? other).map fun node => { node with
        kind := if other = id then ⟨.expressionStatement, (left, ())⟩
          else if other = expression then ⟨.assignment, (tree.size, operator, right, ())⟩
          else node.kind
        parent := if other = left then some id else if other = expression then none
          else node.parent } := by
  rw [moveLeft, node?_exchange, h.node?_cutLeft offset ho, Option.map_map]
  congr 1
  funext node
  by_cases hleft : other = left <;> simp [hleft]

/-- When its left side has been cut off, the statement is not below it. -/
theorem not_ancestor (hwf : (tree.cutLeft expression left right operator offset).WellFormed) :
    (tree.cutLeft expression left right operator offset).isAncestorOrSelf left id = false := by
  have hstep (child parent : NodeId) (hc : child < tree.size)
      (hp : (tree.cutLeft expression left right operator offset).parent? child = some parent) :
      tree.parent? child = some parent := by
    obtain ⟨node, hnode⟩ := node?_of_lt_size hc
    rw [Tree.parent?, h.node?_cutLeft offset hc, hnode] at hp
    simp only [Option.map_some, Option.bind_some, Option.ite_none_left_eq_some] at hp
    rw [Tree.parent?, hnode]
    exact hp.2
  have hpath (top : NodeId) (hc : Relation.TransGen (fun child parent =>
      (tree.cutLeft expression left right operator offset).parent? child = some parent) id top) :
      Relation.TransGen (fun child parent => tree.parent? child = some parent) id top ∧
        top < tree.size := by
    induction hc with
    | single hp =>
      have hp' := hstep _ _ (lt_size_of_node? h.statement_eq) hp
      exact ⟨.single hp', h.wellFormed.parent_lt_size hp'⟩
    | tail _ hp ih =>
      have hp' := hstep _ _ ih.2 hp
      exact ⟨ih.1.tail hp', h.wellFormed.parent_lt_size hp'⟩
  have hnot : left ∉ (tree.cutLeft expression left right operator offset).ancestors id := by
    intro hmem
    have hup := (hpath left (hwf.mem_ancestors_iff.mp hmem)).1
    have hloop := (hup.tail h.parent?_left).tail h.parent?_expression
    exact h.wellFormed.not_mem_ancestors id (h.wellFormed.mem_ancestors_iff.mpr hloop)
  simp [isAncestorOrSelf, hnot, h.left_ne_id]

theorem detach_left (hfree : inner.isProtected = false) : ∃ offset,
    tree.detach left = .ok (tree.cutLeft expression left right operator offset) := by
  obtain ⟨node, hnode⟩ := node?_of_lt_size (lt_size_of_parent? h.parent?_left)
  have hlink : node.parent = some expression := by
    simpa [Tree.parent?, hnode] using h.parent?_left
  refine ⟨node.span.start, detach_eq_vacate hnode hlink h.inner_eq hfree ?_ ?_⟩
  · rw [h.inner_kind]
    exact NodeKind.take_left ..
  · rw [h.inner_kind]
    exact NodeKind.swap?_left ..

theorem replaceChild_left (hfree : statement.isProtected = false)
    (hwf : (tree.cutLeft expression left right operator offset).WellFormed) :
    (tree.cutLeft expression left right operator offset).replaceChild id expression left =
      .ok (tree.moveLeft id expression left right operator offset) := by
  have hid := lt_size_of_node? h.statement_eq
  have hexpression := lt_size_of_node? h.inner_eq
  have hne : id ≠ expression := (h.wellFormed.ne_of_parent? h.parent?_expression).symm
  obtain ⟨node, hnode⟩ := node?_of_lt_size (lt_size_of_parent? h.parent?_left)
  have hstatement := h.node?_cutLeft offset hid
  have hleft := h.node?_cutLeft offset (lt_size_of_node? hnode)
  rw [h.statement_eq, Option.map_some] at hstatement
  rw [hnode, Option.map_some] at hleft
  refine replaceChild_eq_exchange hstatement hfree hleft (if_pos rfl) ?_ (h.not_ancestor offset hwf)
    ?_
  · rw [cutLeft, size_vacate]
    exact Nat.lt_succ_of_lt hexpression
  · rw [if_neg hne, h.statement_kind]
    exact NodeKind.swap?_expression ..

theorem detach_right (hfree : inner.isProtected = false) : ∃ offset',
    (tree.moveLeft id expression left right operator offset).detach right =
      .ok (tree.collapsed id expression left right operator offset offset') := by
  have hexpression := lt_size_of_node? h.inner_eq
  have hright := lt_size_of_parent? h.parent?_right
  have hne : expression ≠ id := h.wellFormed.ne_of_parent? h.parent?_expression
  have hne' : right ≠ expression := h.wellFormed.ne_of_parent? h.parent?_right
  obtain ⟨node, hnode⟩ := node?_of_lt_size hright
  have hlink : node.parent = some expression := by
    simpa [Tree.parent?, hnode] using h.parent?_right
  have hsize : (tree.moveLeft id expression left right operator offset).size = tree.size + 1 := by
    rw [moveLeft, size_exchange, cutLeft, size_vacate]
  have hinner := h.node?_moveLeft offset hexpression
  have hright' := h.node?_moveLeft offset hright
  rw [h.inner_eq, Option.map_some] at hinner
  rw [hnode, Option.map_some] at hright'
  have hslot : tree.size ≠ right := (Nat.ne_of_lt hright).symm
  have hlink' :
      (if right = left then some id else if right = expression then none else node.parent) =
      some expression := by
    rw [if_neg h.left_ne_right.symm, if_neg hne']
    exact hlink
  have hdetach := detach_eq_vacate hright' hlink' hinner hfree
    (by rw [if_neg hne, if_pos rfl]; exact NodeKind.take_right _ hslot)
    (by rw [if_neg hne, if_pos rfl, hsize]; exact NodeKind.swap?_right _ _ hslot)
  exact ⟨node.span.start, hdetach⟩

theorem collapses : tree.Collapses (tree.collapsed id expression left right operator offset offset')
    id expression left right operator := by
  have hexpression := lt_size_of_node? h.inner_eq
  have hright := lt_size_of_parent? h.parent?_right
  have hne : expression ≠ id := h.wellFormed.ne_of_parent? h.parent?_expression
  have hleft := lt_size_of_parent? h.parent?_left
  have hsize : (tree.moveLeft id expression left right operator offset).size = tree.size + 1 := by
    rw [moveLeft, size_exchange, cutLeft, size_vacate]
  have hexpression' :
      expression < (tree.moveLeft id expression left right operator offset).size := by
    rw [hsize]
    exact Nat.lt_succ_of_lt hexpression
  have hright' : right < (tree.moveLeft id expression left right operator offset).size := by
    rw [hsize]
    exact Nat.lt_succ_of_lt hright
  refine ⟨?_, ?_, fun other ho => ?_, fun other node ho hother => ?_⟩
  · rw [collapsed, root_vacate, moveLeft, root_exchange, cutLeft, root_vacate]
  · rw [collapsed, size_vacate, hsize]
  · rw [collapsed, node?_vacate hexpression' hright', hsize,
      if_neg (Nat.ne_of_lt (Nat.lt_succ_of_lt ho)), h.node?_moveLeft offset ho, Option.map_map]
    refine congrArg (Option.map · _) (funext fun node => ?_)
    have hkind (first second third last : NodeKind) :
        (if other = expression then first else if other = id then second
          else if other = expression then third else last) =
            if other = id then second else if other = expression then first else last := by
      by_cases he : other = expression
      · rw [if_pos he, if_neg (he ▸ hne), if_pos he]
      · simp only [if_neg he]
    have hparent : (if other = right then none else if other = left then some id
        else if other = expression then none else node.parent) =
          if other = left then some id else if other = expression ∨ other = right then none
            else node.parent := by
      by_cases hr : other = right
      · simp [hr, h.left_ne_right.symm]
      · simp [hr]
    simp only [Function.comp_apply, hkind, hparent]
  · have hne' : tree.size ≠ expression := (Nat.ne_of_lt hexpression).symm
    have hne'' : tree.size ≠ id := (Nat.ne_of_lt (lt_size_of_node? h.statement_eq)).symm
    rw [collapsed, node?_vacate hexpression' hright', hsize] at hother
    split at hother
    · exact ⟨offset', (Option.some.inj hother).symm⟩
    · rw [moveLeft, node?_exchange, cutLeft, node?_vacate hexpression hleft] at hother
      by_cases hnew : other = tree.size
      · rw [hnew] at hother
        simp only [if_true, Option.map_some, if_neg hne', if_neg hne'', Option.some.injEq] at hother
        have hleft' : tree.size ≠ left := (Nat.ne_of_lt hleft).symm
        have hright' : tree.size ≠ right := (Nat.ne_of_lt (lt_size_of_parent? h.parent?_right)).symm
        refine ⟨offset, ?_⟩
        rw [← hother]
        simp only [if_neg hleft', if_neg hright']
      · rw [if_neg hnew, node?_eq_none_iff.mpr ho] at hother
        cases hother

end Steps

/-- Where neither the statement nor the assignment is protected, all three changes are made. -/
theorem edits_collapse (hfree : statement.isProtected = false)
    (hfree' : inner.isProtected = false) : ∃ first second third, tree.detach left = .ok first ∧
      first.replaceChild id expression left = .ok second ∧ second.detach right = .ok third ∧
      tree.Collapses third id expression left right operator := by
  obtain ⟨offset, hfirst⟩ := h.detach_left hfree'
  have hsecond := h.replaceChild_left offset hfree (h.wellFormed.detach hfirst)
  obtain ⟨offset', hthird⟩ := h.detach_right offset hfree'
  exact ⟨_, _, _, hfirst, hsecond, hthird, h.collapses offset offset'⟩

end Assigns

theorem Collapses.keeps (h : tree.Collapses tree' id expression left right operator)
    (ha : tree.Assigns id expression left right operator statement inner)
    (hfree : statement.isProtected = false) (hfree' : inner.isProtected = false) :
    tree.Keeps tree' where
  size_le := by
    rw [h.size_eq]
    omega
  resembles other node hnode := by
    rw [h.node?_eq other (lt_size_of_node? hnode), hnode]
    refine ⟨_, rfl, Node.resembles_of_links _ ?_⟩
    by_cases hid : other = id
    · subst hid
      obtain rfl := Option.some.inj (hnode.symm.trans ha.statement_eq)
      rw [if_pos rfl, ha.statement_kind]
      exact .inr ⟨rfl, hfree⟩
    · by_cases he : other = expression
      · subst he
        obtain rfl := Option.some.inj (hnode.symm.trans ha.inner_eq)
        rw [if_neg hid, if_pos rfl, ha.inner_kind]
        exact .inr ⟨rfl, hfree'⟩
      · rw [if_neg hid, if_neg he]
        exact .inl rfl
  fresh other node ho hnode := by
    obtain ⟨offset, rfl⟩ := h.fresh other node ho hnode
    exact ⟨offset, Node.resembles_of_links _ (.inl rfl)⟩

end Tree
end SyntaxRecovery
