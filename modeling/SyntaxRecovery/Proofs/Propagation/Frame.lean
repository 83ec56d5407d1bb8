import SyntaxRecovery.Proofs.Propagation.Leftovers
import SyntaxRecovery.Proofs.Propagation.Removal

/-! What propagation may change. Nodes keep what was written, and what the root does not lead to
stays as it is. The root leads to all that it led to before, but for made-up names and what holds
nothing but those. -/
namespace SyntaxRecovery

namespace Tree
variable {tree tree' : Tree} {root id child other top fragment : NodeId} {node : Node}
  {marked : Finset NodeId}

/-- The nodes that propagation may cut off: names that recovery made up, assignments of such, and in
the header of a loop what is declared under such a name, with the whole declaration if it declares
nothing else. -/
inductive Expendable (tree : Tree) (id : NodeId) : Prop
  | name (h : tree.IsMissing id)
  | assignment {node : Node} {left right : NodeId} {operator : AssignmentOperator}
    (hnode : tree.node? id = some node)
    (hkind : node.kind = ⟨.assignment, (left, operator, right, ())⟩) (hright : tree.IsMissing right)
  | fragment {loop declaration fragment : NodeId} {fragments : List NodeId}
    (h : tree.SoleDeclaration loop declaration fragments) (hmem : fragment ∈ fragments)
    (hmissing : tree.DeclaresMissing fragment) (hbelow : tree.Below fragment id)
  | declaration {loop declaration : NodeId} {fragments : List NodeId}
    (h : tree.SoleDeclaration loop declaration fragments) (hne : fragments ≠ [])
    (hmissing : ∀ fragment ∈ fragments, tree.DeclaresMissing fragment)
    (hbelow : tree.Below declaration id)

/-- `tree'` is `tree` with the changes that propagation from the root may make. -/
structure Confined (tree : Tree) (root : NodeId) (tree' : Tree) : Prop where
  wellFormed : tree'.WellFormed
  root_eq : tree'.root = tree.root
  /-- A node keeps its span, its shape and what its fields hold besides children, and if it is
  protected its children, too. It may get the flag of recovery. -/
  kept : ∀ id node, tree.node? id = some node →
    ∃ node', tree'.node? id = some node' ∧ node.Resembles node'
  outside : ∀ id < tree.size, ¬ tree.Below root id → tree'.node? id = tree.node? id
  fresh : ∀ id node, tree.size ≤ id → tree'.node? id = some node → ¬ tree'.Below root id ∧
    ∃ offset holder, node = { Node.placeholder offset with parent := some holder }
  lost : ∀ id, tree.Below root id → ¬ tree'.Below root id → tree.Expendable id

theorem DeclaresMissing.of_markAll (h : (tree.markAll marked).DeclaresMissing fragment) :
    tree.DeclaresMissing fragment := by
  obtain ⟨node, name, initializer, hnode, hkind, hname⟩ := h
  obtain ⟨known, hknown, hsame, -⟩ := of_node?_markAll hnode
  exact ⟨known, name, initializer, hknown, hsame.symm.trans hkind,
    (keeps_markAll tree marked).of_isMissing hname⟩

theorem node?_markAll_of_not_mem (h : id ∉ marked) :
    (tree.markAll marked).node? id = tree.node? id := by
  rw [node?_markAll]
  simp [h]

theorem below_markAll : (tree.markAll marked).Below top id ↔ tree.Below top id := by
  simp only [Below, parent?_markAll]

/-- Above a node that has no parent there is nothing. -/
theorem Below.eq_of_parentless (h : tree.Below top id) (hfree : tree.parent? id = none) :
    id = top := by
  rcases Relation.ReflTransGen.cases_head h with heq | ⟨next, hnext, -⟩
  · exact heq
  · rw [hfree] at hnext
    cases hnext

end Tree

namespace Attribution
variable {tree tree' tree'' : Tree} {log : EditLog} {left rest : List Departure} {root : NodeId}
  {departure : Departure} {state state' : Attribution} {diagnostics : List Diagnostic}
  {marked : Finset NodeId} {node : Node}

/-- Above a node that is next to be left, everything is as it was. -/
theorem Reached.below_of {top id : NodeId} (h : Reached log tree left tree' state)
    (hout : ∀ first ∈ left, ¬ tree.Below first.id id)
    (hbelow : tree.Below top id) : tree'.Below top id := by
  induction hbelow using Relation.ReflTransGen.head_induction_on with
  | refl => exact .refl
  | @head child parent hp _ ih =>
    have hp' : tree'.parent? child = some parent := by
      rw [Tree.parent?_congr (h.skeleton_eq child (Tree.lt_size_of_parent? hp) hout)]
      exact hp
    exact .step hp' (ih fun first hf hb => hout first hf (.step hp hb))

/-- The children of a node that has not been left, nor anything above it, are those that it had. -/
theorem Reached.parent?_eq_some_iff {child parent : NodeId} (h : Reached log tree left tree' state)
    (hwf : tree.WellFormed) (hparent : parent < tree.size)
    (hout : ∀ first ∈ left, ¬ tree.Below first.id parent) :
    tree'.parent? child = some parent ↔ tree.parent? child = some parent := by
  rw [← h.wellFormed.linked, ← hwf.linked,
    Tree.children_congr (h.skeleton_eq parent hparent hout)]

/-- What a walk has changed when it has left the nodes of the list. -/
structure Confines (log : EditLog) (tree : Tree) (root : NodeId) (left : List Departure)
    (tree' : Tree) (state : Attribution) : Prop where
  continues : tree.Continues tree'
  waiting : Waiting tree left state
  of_declaresMissing : ∀ {fragment}, tree'.DeclaresMissing fragment → tree.DeclaresMissing fragment
  /-- Expressions and declarations change with the node that holds them, when that is left. -/
  kind_eq : ∀ {id parent node node'}, tree.parent? id = some parent →
    (∀ first ∈ left, ¬ tree.Below first.id parent) → tree.node? id = some node →
    node.shape ≠ .expressionStatement → node.shape ≠ .forStatement →
    tree'.node? id = some node' → node'.kind = node.kind
  outside : ∀ id < tree.size, ¬ tree.Below root id → tree'.node? id = tree.node? id
  fresh : ∀ id node, tree.size ≤ id → tree'.node? id = some node → ¬ tree'.Below root id ∧
    ∃ offset holder, node = { Node.placeholder offset with parent := some holder }
  lost : ∀ id, tree.Below root id → tree'.Below root id ∨ tree.Expendable id

namespace Confines

theorem start (tree : Tree) (root : NodeId) (log : EditLog) (diagnostics : List Diagnostic) :
    Confines log tree root [] tree (.start log diagnostics) where
  continues := .refl tree
  waiting := .start
  of_declaresMissing h := h
  kind_eq _ _ hnode _ _ hnode' := by rw [Option.some.inj (hnode.symm.trans hnode')]
  outside _ _ _ := rfl
  fresh _ _ hle hnode := absurd (Tree.lt_size_of_node? hnode) (Nat.not_lt_of_le hle)
  lost _ h := .inl h

/-- What is flagged when a node is left is a node of the tree that the root leads to. -/
theorem below_of_marked (h : Confines log tree root left tree' state)
    (hfree : tree.parent? root = none) (hreached : Reached log tree left tree' state)
    (hleft : ∀ first ∈ left, tree.Below root first.id) (hid : tree.Below root departure.id)
    {depth : Nat}
    (hleaves : Leaves tree' departure.id node { state with depth } marked state')
    {other : NodeId} (ho : other ∈ marked) : tree.Below root other := by
  rcases hleaves.implicated other ho with rfl | himplicates
  · exact hid
  · obtain ⟨id, hpending, known, -, -, hcases⟩ :=
      h.waiting.implicates_cases hreached.wellFormed h.continues hreached.serves himplicates
    obtain ⟨first, hfirst, rfl⟩ := h.waiting.known id hpending
    have hbelow := hleft first hfirst
    rcases hcases with ⟨rfl, -⟩ | ⟨-, hup, -⟩
    · exact hbelow
    · rcases hup.total hbelow with hdown | hdown
      · exact hdown.eq_of_parentless hfree ▸ .refl
      · exact hdown

/-- The node that is left holds the declaration that it has held from the start. -/
theorem of_soleDeclaration (h : Confines log tree root left tree' state) (hwf : tree.WellFormed)
    (hreached : Reached log tree left tree' state) {loop declaration : NodeId}
    {fragments : List NodeId}
    (hloop : loop < tree.size) (hout : ∀ first ∈ left, ¬ tree.Below first.id loop)
    (hsole : (tree'.markAll marked).SoleDeclaration loop declaration fragments) :
    tree.SoleDeclaration loop declaration fragments := by
  obtain ⟨⟨statement, rest, hstatement, hkind⟩, header, type, hheader, hkind'⟩ := hsole
  obtain ⟨statement', hstatement', hsame, -⟩ := Tree.of_node?_markAll hstatement
  obtain ⟨header', hheader', hsame', -⟩ := Tree.of_node?_markAll hheader
  obtain ⟨first, hfirst⟩ := Tree.node?_of_lt_size hloop
  obtain ⟨found, hfound, hfirstKind, -⟩ :=
    Tree.node?_congr_skeleton (hreached.skeleton_eq loop hloop hout) hfirst
  obtain rfl := Option.some.inj (hstatement'.symm.trans hfound)
  have hkinds : first.kind = ⟨.forStatement, ([declaration], rest)⟩ :=
    hfirstKind.symm.trans (hsame.symm.trans hkind)
  have hmem : declaration ∈ first.kind.children := by
    rw [hkinds]
    exact List.mem_cons_self
  obtain ⟨hparent, hlt⟩ := Tree.mem_children_of_node? hwf hfirst rfl hmem
  obtain ⟨known, hknown⟩ := Tree.node?_of_lt_size hlt
  obtain ⟨other, hother, hres⟩ := h.continues.keeps.resembles declaration known hknown
  obtain rfl := Option.some.inj (hheader'.symm.trans hother)
  have hshape : known.shape = .variableDeclarationExpression :=
    hres.shape_eq.symm.trans (congrArg NodeKind.shape (hsame'.symm.trans hkind'))
  have heq : header'.kind = known.kind :=
    h.kind_eq hparent hout hknown (by rw [hshape]; decide) (by rw [hshape]; decide) hheader'
  exact ⟨⟨first, rest, hfirst, hkinds⟩, known, type, hknown,
    heq.symm.trans (hsame'.symm.trans hkind')⟩

/-- What the repair of a node cuts off is expendable from the start. -/
theorem expendable_of_cutsOff (h : Confines log tree root left tree' state) (hwf : tree.WellFormed)
    (hreached : Reached log tree left tree' state) {id other : NodeId} (hid : id < tree.size)
    (hout : ∀ first ∈ left, ¬ tree.Below first.id id) (ho : other < tree.size)
    (hcut : (tree'.markAll marked).CutsOff id other) : tree.Expendable other := by
  have hflags := h.continues.trans (Tree.continues_markAll tree' marked)
  rcases hcut with
    ⟨child, hspare, hbelow⟩ | ⟨hparent, inner, first, operator, last, hinner, hkind, hlast⟩
  · have hbelow' := hflags.below ho hbelow
    cases hspare with
    | name hname =>
      have hname' := hflags.keeps.of_isMissing hname
      exact .name (hname'.eq_of_below hwf hbelow' ▸ hname')
    | fragment hsole hmem hmissing =>
      exact .fragment (h.of_soleDeclaration hwf hreached hid hout hsole) hmem
        (h.of_declaresMissing hmissing.of_markAll) hbelow'
    | declaration hsole hne hmissing =>
      exact .declaration (h.of_soleDeclaration hwf hreached hid hout hsole) hne
        (fun fragment hf => h.of_declaresMissing (hmissing fragment hf).of_markAll) hbelow'
  · rw [Tree.parent?_markAll, hreached.parent?_eq_some_iff hwf hid hout] at hparent
    obtain ⟨inner', hinner', hsame, -⟩ := Tree.of_node?_markAll hinner
    obtain ⟨known, hknown⟩ := Tree.node?_of_lt_size ho
    obtain ⟨found, hfound, hres⟩ := h.continues.keeps.resembles other known hknown
    obtain rfl := Option.some.inj (hinner'.symm.trans hfound)
    have hshape : known.shape = .assignment :=
      hres.shape_eq.symm.trans (congrArg NodeKind.shape (hsame.symm.trans hkind))
    have heq : inner'.kind = known.kind :=
      h.kind_eq hparent hout hknown (by rw [hshape]; decide) (by rw [hshape]; decide) hinner'
    exact .assignment hknown (heq.symm.trans (hsame.symm.trans hkind))
      (hflags.keeps.of_isMissing hlast)

section Step
variable (h : Confines log tree root left tree' state)
    (hreached : Reached log tree left tree' state)
  (hrewrites : Tree.Rewrites (tree'.markAll marked) departure.id tree'')
include h hreached hrewrites

/-- A node changes its kind only when it is repaired itself or hangs at the node that is. -/
theorem kind_eq_of_rewrites (hwf : tree.WellFormed) {id parent : NodeId} {last : Node}
    (hparent : tree.parent? id = some parent) (hne : parent ≠ departure.id)
    (hout : ∀ first ∈ left, ¬ tree.Below first.id parent) (hnode : tree.node? id = some node)
    (hstatement : node.shape ≠ .expressionStatement) (hloop : node.shape ≠ .forStatement)
    (hlast : tree''.node? id = some last) : last.kind = node.kind := by
  have hflags := h.continues.trans (Tree.continues_markAll tree' marked)
  obtain ⟨before, hbefore, hres⟩ := hflags.keeps.resembles id node hnode
  obtain ⟨before', hbefore', hsame, -⟩ := Tree.of_node?_markAll hbefore
  rw [← h.kind_eq hparent hout hnode hstatement hloop hbefore', ← hsame]
  refine hrewrites.kind_eq hbefore hlast (fun _ => hres.shape_eq ▸ ⟨hstatement, hloop⟩) fun hp => ?_
  -- The node is still where it was.
  have hparent' := (hreached.parent?_eq_some_iff hwf (hwf.parent_lt_size hparent) hout).mpr hparent
  rw [Tree.parent?_markAll, hparent'] at hp
  exact absurd (Option.some.inj hp) hne

omit h in
theorem node?_eq_of_rewrites {id : NodeId} (ho : id < tree'.size)
    (hnot : ¬ tree'.Below departure.id id) (hmark : id ∉ marked) :
    tree''.node? id = tree'.node? id := by
  have hmarked : (tree'.markAll marked).WellFormed :=
    hreached.wellFormed.congr_skeleton Tree.skeleton_markAll
  have hnot' : ¬ (tree'.markAll marked).Below departure.id id := fun hb =>
    hnot ((Tree.continues_markAll tree' marked).below ho hb)
  have ho' : id < (tree'.markAll marked).size := by
    rw [Tree.size_markAll]
    exact ho
  rw [hrewrites.node?_eq_of_not_below hmarked ho' hnot', Tree.node?_markAll_of_not_mem hmark]

theorem outside_of_rewrites (hmarks : ∀ other ∈ marked, tree.Below root other)
    (hid : tree.Below root departure.id) {id : NodeId} (ho : id < tree.size)
    (hnot : ¬ tree.Below root id) : tree''.node? id = tree.node? id := by
  have hnot' : ¬ tree'.Below departure.id id := fun hb =>
    hnot ((h.continues.below ho hb).trans hid)
  rw [node?_eq_of_rewrites hreached hrewrites (Nat.lt_of_lt_of_le ho hreached.size_le) hnot'
    fun hm => hnot (hmarks id hm)]
  exact h.outside id ho hnot

variable (hbelow : tree'.Below root departure.id)
include hbelow

theorem fresh_of_rewrites (hmarks : ∀ other ∈ marked, tree.Below root other)
    (hknown : root < tree.size) {id : NodeId} (hle : tree.size ≤ id)
    (hnode : tree''.node? id = some node) : ¬ tree''.Below root id ∧
      ∃ offset holder, node = { Node.placeholder offset with parent := some holder } := by
  have hmarked : (tree'.markAll marked).WellFormed :=
    hreached.wellFormed.congr_skeleton Tree.skeleton_markAll
  by_cases hold : id < tree'.size
  · obtain ⟨before, hbefore⟩ := Tree.node?_of_lt_size hold
    obtain ⟨hnot, offset, holder, hnew⟩ := h.fresh id before hle hbefore
    have hmark : id ∉ marked := fun hm => Nat.not_lt_of_le hle ((hmarks id hm).lt_size hknown)
    have hsame :=
      node?_eq_of_rewrites hreached hrewrites hold (fun hb => hnot (hb.trans hbelow)) hmark
    rw [hsame, hbefore] at hnode
    refine ⟨fun hb => hnot ?_, offset, holder, (Option.some.inj hnode).symm.trans hnew⟩
    have hold' : id < (tree'.markAll marked).size := by
      rw [Tree.size_markAll]
      exact hold
    exact (Tree.continues_markAll tree' marked).below hold (hrewrites.of_below hmarked hold' hb)
  · have hnew : (tree'.markAll marked).size ≤ id := by
      rw [Tree.size_markAll]
      exact Nat.le_of_not_lt hold
    have hid : departure.id < (tree'.markAll marked).size := by
      rw [Tree.size_markAll]
      exact hbelow.lt_size (Nat.lt_of_lt_of_le hknown hreached.size_le)
    obtain ⟨offset, holder, heq, -⟩ := hrewrites.fresh hnew hnode
    exact ⟨hrewrites.not_below_fresh hmarked (Tree.below_markAll.mpr hbelow) hid hnew hnode,
      offset, holder, heq⟩

theorem lost_of_rewrites (hwf : tree.WellFormed) (hknown : root < tree.size)
    (hid : tree.Below root departure.id) (hout : ∀ first ∈ left, ¬ tree.Below first.id departure.id)
    {id : NodeId} (hb : tree.Below root id) : tree''.Below root id ∨ tree.Expendable id := by
  have hmarked : (tree'.markAll marked).WellFormed :=
    hreached.wellFormed.congr_skeleton Tree.skeleton_markAll
  have ho := hb.lt_size hknown
  have ho' : id < (tree'.markAll marked).size := by
    rw [Tree.size_markAll]
    exact Nat.lt_of_lt_of_le ho hreached.size_le
  rcases h.lost id hb with hb' | hlost
  · have hup := hrewrites.below_or_cutsOff hmarked (Tree.below_markAll.mpr hbelow) ho'
      (Tree.below_markAll.mpr hb')
    exact hup.imp_right (h.expendable_of_cutsOff hwf hreached (hid.lt_size hknown) hout ho)
  · exact .inr hlost

end Step

theorem depart (h : Confines log tree root left tree' state) (hwf : tree.WellFormed)
    (hroot : tree.root = some root) (hknown : root < tree.size) (hfree : tree.parent? root = none)
    (hsplit : tree.departures log = left ++ departure :: rest)
    (hreached : Reached log tree left tree' state)
    (hdepart : Attribution.depart (tree', state) departure = some (tree'', state')) :
    Confines log tree root (left ++ [departure]) tree'' state' := by
  obtain ⟨node', marked, hnode', hleaves, hrepair⟩ := hreached.leaves hdepart
  obtain ⟨flagged, hflagged, -, hshape, -⟩ := Tree.node?_markAll_of_node? marked hnode'
  rw [← hshape] at hrepair
  have hmarked : (tree'.markAll marked).WellFormed :=
    hreached.wellFormed.congr_skeleton Tree.skeleton_markAll
  have hrewrites := Tree.repair_rewrites hmarked hflagged hrepair
  -- The root leads to every node that is left.
  have hdepartures : ∀ first ∈ tree.departures log, tree.Below root first.id := by
    intro first hf
    rw [Tree.departures_of_root hroot] at hf
    exact Tree.below_of_mem_departuresFrom hwf hf
  have hid : tree.Below root departure.id :=
    hdepartures departure (hsplit ▸ List.mem_append_right _ List.mem_cons_self)
  have hleft : ∀ first ∈ left, tree.Below root first.id := fun first hf =>
    hdepartures first (hsplit ▸ List.mem_append_left _ hf)
  have hout : ∀ first ∈ left, ¬ tree.Below first.id departure.id := by
    have hpairwise := Tree.pairwise_departures hwf log
    rw [hsplit, List.pairwise_append] at hpairwise
    exact fun first hf => hpairwise.2.2 first hf departure List.mem_cons_self
  have hbelow : tree'.Below root departure.id := hreached.below_of hout hid
  have hmarks : ∀ other ∈ marked, tree.Below root other := fun other ho =>
    h.below_of_marked hfree hreached hleft hid hleaves ho
  constructor
  · exact (h.continues.trans (Tree.continues_markAll tree' marked)).trans
      (hrewrites.continues hmarked)
  · obtain ⟨node, hnode⟩ := Tree.node?_of_lt_size (hid.lt_size hknown)
    obtain ⟨found, hfound, hres⟩ := h.continues.keeps.resembles _ node hnode
    obtain rfl := Option.some.inj (hnode'.symm.trans hfound)
    exact h.waiting.depart hwf hsplit hnode hres.shape_eq hres.span_eq hleaves
  · intro fragment hd
    exact h.of_declaresMissing (hrewrites.of_declaresMissing hd).of_markAll
  · intro id parent node last hparent hout' hnode hstatement hloop hlast
    obtain ⟨hout', hlater⟩ := List.forall_mem_append.mp hout'
    have hne : parent ≠ departure.id := fun heq =>
      hlater departure List.mem_cons_self (heq ▸ .refl)
    exact h.kind_eq_of_rewrites hreached hrewrites hwf hparent hne hout' hnode hstatement hloop
      hlast
  · exact fun id ho hnot => h.outside_of_rewrites hreached hrewrites hmarks hid ho hnot
  · exact fun id last hle hlast =>
      h.fresh_of_rewrites hreached hrewrites hbelow hmarks hknown hle hlast
  · exact fun id hb => h.lost_of_rewrites hreached hrewrites hbelow hwf hknown hid hout hb

end Confines
end Attribution

/-- Propagation comes to an end, and changes a tree whose root has no parent in the ways that
repairs and flags of recovery need, and in no other. -/
theorem propagate_confined {tree : Tree} (hwf : tree.WellFormed) {root : NodeId}
    (hroot : tree.root = some root) (hknown : root < tree.size) (hfree : tree.parent? root = none)
    (diagnostics : List Diagnostic) (log : EditLog) : ∃ tree' diagnostics',
      propagate tree diagnostics log = some (tree', diagnostics') ∧ tree.Confined root tree' := by
  have hknown' : ∀ id ∈ tree.root, id < tree.size := by
    intro id hid
    rw [hroot] at hid
    exact Option.some.inj hid ▸ hknown
  obtain ⟨tree', state, hrun, hreached, hend⟩ := Attribution.foldlM_depart_induction hwf hknown'
    (Attribution.Confines.start tree root log diagnostics)
    fun hsplit hreached h hdepart => h.depart hwf hroot hknown hfree hsplit hreached hdepart
  refine ⟨tree', state.concerns.map (·.diagnostic), ?_, hreached.wellFormed, hreached.root_eq,
    hend.continues.keeps.resembles, hend.outside, hend.fresh, fun id hbelow hnot => ?_⟩
  · rw [propagate_eq_foldlM hwf hknown', hrun]
    rfl
  · exact (hend.lost id hbelow).resolve_left hnot

/-- The root of the tree with the dangling assignment has no parent. -/
theorem propagate_confined_danglingAssignment : danglingAssignment.WellFormed ∧
    danglingAssignment.root = some 4 ∧ 4 < danglingAssignment.size ∧
    danglingAssignment.parent? 4 = none ∧ ∃ tree' diagnostics',
      propagate danglingAssignment [] { insertions := [⟨.semicolon, [], 4, none, false⟩] } =
        some (tree', diagnostics') ∧ danglingAssignment.Confined 4 tree' := by
  have hlink : Tree.link danglingAssignment.nodes danglingAssignment.root =
      .ok danglingAssignment := by decide +kernel
  have hwf := Tree.wellFormed_of_link hlink
  exact ⟨hwf, rfl, by decide, rfl, propagate_confined hwf rfl (by decide) rfl [] _⟩

end SyntaxRecovery
