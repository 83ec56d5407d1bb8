import SyntaxRecovery.Proofs.Propagation.Idioms
import SyntaxRecovery.Proofs.Propagation.Safety

/-! A statement `x = <missing>;` is repaired as a whole or not at all. -/
namespace SyntaxRecovery.Tree
variable {tree tree' third : Tree} {id expression left right : NodeId}
    {operator : AssignmentOperator}
  {statement inner : Node}

/-- What has become of a tree when the left side of an assignment has taken its place in a
statement. Two new names stand in the assignment, and nothing else is different. -/
structure LosesAssignment (tree tree' : Tree) (id expression left right : NodeId)
    (operator : AssignmentOperator) : Prop where
  statement_eq : tree'.node? id = (tree.node? id).map fun node =>
    { node with kind := ⟨.expressionStatement, (left, ())⟩ }
  left_eq : tree'.node? left = (tree.node? left).map fun node =>
    { node with parent := some id, flags := node.flags.union .recovered }
  assignment_eq : tree'.node? expression = (tree.node? expression).map fun node =>
    { node with kind := ⟨.assignment, (tree.size, operator, tree.size + 1, ())⟩, parent := none }
  right_eq : tree'.node? right = (tree.node? right).map fun node => { node with parent := none }
  hole_eq : ∀ hole ∈ [tree.size, tree.size + 1], ∃ offset,
    tree'.node? hole = some { Node.placeholder offset with parent := some expression }
  size_eq : tree'.size = tree.size + 2
  root_eq : tree'.root = tree.root
  other_eq : ∀ other < tree.size, other ∉ [id, left, expression, right] →
    tree'.node? other = tree.node? other

theorem Assigns.right_ne_id (h : tree.Assigns id expression left right operator statement inner) :
    right ≠ id := fun heq =>
  Below.not_parent h.wellFormed h.parent?_right (heq ▸ .step h.parent?_expression .refl)

theorem Collapses.losesAssignment (h : tree.Collapses third id expression left right operator)
    (ha : tree.Assigns id expression left right operator statement inner) :
    tree.LosesAssignment (third.addFlags left .recovered) id expression left right operator := by
  have hid := lt_size_of_node? ha.statement_eq
  have hexpression := lt_size_of_node? ha.inner_eq
  have hleft := lt_size_of_parent? ha.parent?_left
  have hright := lt_size_of_parent? ha.parent?_right
  have hne : expression ≠ id := ha.wellFormed.ne_of_parent? ha.parent?_expression
  have hne_left : left ≠ expression := ha.wellFormed.ne_of_parent? ha.parent?_left
  have hne_right : right ≠ expression := ha.wellFormed.ne_of_parent? ha.parent?_right
  -- Every node but the left side is what it was before the flag was set.
  have hflags {other : NodeId} (ho : other ≠ left) :
      (third.addFlags left .recovered).node? other = third.node? other := by
    rw [addFlags, node?_modify, if_neg ho.symm]
  constructor
  · rw [hflags ha.left_ne_id.symm, h.node?_eq id hid]
    simp [ha.left_ne_id.symm, hne.symm, ha.right_ne_id.symm]
  · rw [addFlags, node?_modify, if_pos rfl, h.node?_eq left hleft, Option.map_map]
    simp [ha.left_ne_id, hne_left, Function.comp_def]
  · rw [hflags hne_left.symm, h.node?_eq expression hexpression]
    simp [hne, hne_left.symm]
  · rw [hflags ha.left_ne_right.symm, h.node?_eq right hright]
    simp [ha.right_ne_id, hne_right, ha.left_ne_right.symm]
  · intro hole hmem
    have hrange : tree.size ≤ hole ∧ hole < third.size := by
      rw [h.size_eq]
      rcases List.mem_pair.mp hmem with rfl | rfl <;> omega
    obtain ⟨node, hnode⟩ := node?_of_lt_size hrange.2
    obtain ⟨offset, rfl⟩ := h.fresh hole node hrange.1 hnode
    refine ⟨offset, ?_⟩
    rw [hflags (Nat.ne_of_gt (Nat.lt_of_lt_of_le hleft hrange.1)), hnode]
  · rw [addFlags, size_modify, h.size_eq]
  · exact h.root_eq
  · intro other ho hnot
    simp only [List.mem_cons, List.not_mem_nil, or_false, not_or] at hnot
    rw [hflags hnot.2.1, h.node?_eq other ho]
    simp [hnot]

/-- Where a statement is recovered and both it and its assignment may be changed, a made-up right
side is cut off by three changes of which none is refused. Otherwise the tree stays as it is. -/
theorem collapseAssignment_whole (hwf : tree.WellFormed) (hid : id < tree.size) :
    tree.collapseAssignment id = some tree ∧
      (∀ expression, ¬ tree.DanglingAssignment id expression) ∨
    ∃ statement expression inner left operator right first second third,
      tree.Assigns id expression left right operator statement inner ∧
      statement.isRecovered = true ∧ statement.isProtected = false ∧ inner.isProtected = false ∧
      tree.IsMissing right ∧
      tree.detach left = .ok first ∧ first.replaceChild id expression left = .ok second ∧
      second.detach right = .ok third ∧
      tree.collapseAssignment id = some (third.addFlags left .recovered) ∧
      tree.LosesAssignment (third.addFlags left .recovered) id expression left right operator := by
  obtain ⟨statement, hstatement⟩ := node?_of_lt_size hid
  rcases collapseAssignment_cases hwf hstatement with hsame | ⟨expression, left, operator, right,
    inner, first, second, third, ha, hrecovered, hfree, hfree', hmissing, hfirst, hsecond, hthird,
    hc,
    heq⟩
  · exact .inl hsame
  · exact .inr ⟨statement, expression, inner, left, operator, right, first, second, third, ha,
      hrecovered, hfree, hfree', hmissing, hfirst, hsecond, hthird, heq, hc.losesAssignment ha⟩

theorem collapseAssignment_whole_danglingAssignment : danglingAssignment.WellFormed ∧
    danglingAssignment.DanglingAssignment 3 2 ∧ ∃ tree' expression left right operator,
      danglingAssignment.collapseAssignment 3 = some tree' ∧
      danglingAssignment.LosesAssignment tree' 3 expression left right operator := by
  have hlink : link danglingAssignment.nodes danglingAssignment.root = .ok danglingAssignment := by
    decide +kernel
  have hwf := wellFormed_of_link hlink
  have hdangling : danglingAssignment.DanglingAssignment 3 2 :=
    ⟨⟨_, rfl, rfl, by decide, by decide⟩,
      ⟨_, 0, .assign, 1, rfl, rfl, by decide, _, rfl, by decide⟩⟩
  refine ⟨hwf, hdangling, ?_⟩
  rcases collapseAssignment_whole hwf (by decide : 3 < danglingAssignment.size) with ⟨-, hnone⟩ |
    ⟨_, expression, _, left, operator, right, _, _, _, -, -, -, -, -, -, -, -, heq, hloses⟩
  · exact absurd hdangling (hnone 2)
  · exact ⟨_, expression, left, right, operator, heq, hloses⟩

end SyntaxRecovery.Tree
