import SyntaxRecovery.Proofs.Propagation.Rewriting

/-! The shapes that repairs are for: statements and fragments whose right side recovery made up.
Each repair makes changes of the known kinds, and leaves none of its shapes at its node but where
one was hidden in another. -/
namespace SyntaxRecovery.Tree
variable {tree tree' tree₁ : Tree} {id parent child other top : NodeId} {node node' : Node}

/-- A recovered statement `x = <missing>;` that may be repaired. -/
structure DanglingAssignment (tree : Tree) (id expression : NodeId) : Prop where
  statement : ∃ node, tree.node? id = some node ∧
    node.kind = ⟨.expressionStatement, (expression, ())⟩ ∧
    node.isRecovered = true ∧ node.isProtected = false
  assignment : ∃ node left operator right, tree.node? expression = some node ∧
    node.kind = ⟨.assignment, (left, operator, right, ())⟩ ∧
    node.isProtected = false ∧ tree.IsMissing right

/-- A fragment `x = <missing>` that may be repaired. -/
structure DanglingFragment (tree : Tree) (fragment value : NodeId) : Prop where
  fragment : ∃ node name, tree.node? fragment = some node ∧
    node.kind = ⟨.variableDeclarationFragment, (name, some value, ())⟩ ∧ node.isProtected = false
  value : ∃ node, tree.node? value = some node ∧ node.isRecovered = true ∧ node.isMissingName = true

/-- A declaration with a fragment `x = <missing>` that may be repaired. -/
def DanglingInitializer (tree : Tree) (id value : NodeId) : Prop :=
  ∃ node type fragments fragment, tree.node? id = some node ∧
    node.kind = ⟨.variableDeclarationStatement, (type, fragments, ())⟩ ∧ fragment ∈ fragments ∧
    tree.DanglingFragment fragment value

theorem not_parent_of_isMissing (hwf : tree.WellFormed) (h : tree.IsMissing id) :
    tree.parent? child ≠ some id := by
  intro hp
  obtain ⟨node, hnode, hname⟩ := h
  have hmem := (hwf.linked id child).mpr hp
  rw [children_of_node? hnode,
    NodeKind.children_of_simpleName (Node.shape_of_isMissingName hname)] at hmem
  cases hmem

theorem take_initializer {name value : NodeId} (hne : name ≠ value) :
    NodeKind.take ⟨.variableDeclarationFragment, (name, some value, ())⟩ value =
      .taken ⟨.variableDeclarationFragment, (name, none, ())⟩ := by
  simp only [NodeKind.take, Record.take, NodeShape.fields, FieldType.take, if_neg hne, if_true]
  rfl

theorem name_ne_initializer {fragment name value : NodeId} (hwf : tree.WellFormed)
    (hnode : tree.node? fragment = some node)
    (hkind : node.kind = ⟨.variableDeclarationFragment, (name, some value, ())⟩) :
    name ≠ value := by
  have hchildren : node.kind.children = [name, value] := by
    rw [hkind]
    rfl
  have hnodup := hwf.nodup fragment
  rw [children_of_node? hnode, hchildren] at hnodup
  simpa using hnodup

/-- An initializer is taken from its fragment where the fragment is not protected. -/
theorem removeChild_initializer {fragment name value : NodeId} (hwf : tree.WellFormed)
    (hnode : tree.node? fragment = some node)
    (hkind : node.kind = ⟨.variableDeclarationFragment, (name, some value, ())⟩)
    (hfree : node.isProtected = false) : tree.removeChild fragment value = .ok
      ((tree.setKind fragment ⟨.variableDeclarationFragment,
        (name, none, ())⟩).setParent value none) := by
  have hne := name_ne_initializer hwf hnode hkind
  have hmem : value ∈ node.kind.children := by
    rw [hkind]
    exact List.mem_cons_of_mem name List.mem_cons_self
  obtain ⟨valueNode, hvalue⟩ := exists_child_node hwf hnode hmem
  refine removeChild_eq_ok hnode hfree hvalue ?_
  rw [hkind]
  exact take_initializer hne

/-- What clearing an initializer comes to: the initializer is taken, or the fragment is none that
may be repaired. -/
theorem clearInitializer_cases {fragment : NodeId} (hwf : tree.WellFormed)
    (h : tree.clearInitializer fragment = some tree') :
    tree' = tree ∧ (∀ value, ¬ tree.DanglingFragment fragment value) ∨
      ∃ node name value tree₁, tree.node? fragment = some node ∧
        node.kind = ⟨.variableDeclarationFragment, (name, some value, ())⟩ ∧ tree.IsMissing value ∧
        tree.removeChild fragment value = .ok tree₁ ∧ tree' = tree₁.addFlags fragment .recovered ∧
        ∀ other, ¬ tree'.DanglingFragment fragment other := by
  cases hnode : tree.node? fragment with
  | none => simp [clearInitializer, hnode] at h
  | some node =>
    have hkind_eq {value : NodeId} (hd : tree.DanglingFragment fragment value) : ∃ name,
        node.kind = ⟨.variableDeclarationFragment, (name, some value, ())⟩ ∧
          node.isProtected = false := by
      obtain ⟨holder, name, hholder, hd⟩ := hd.fragment
      obtain rfl := Option.some.inj (hnode.symm.trans hholder)
      exact ⟨name, hd⟩
    simp only [clearInitializer, hnode, Option.bind_eq_bind, Option.bind_some] at h
    split at h
    · next name initializer _ hkind =>
      have hinitializer {value : NodeId} (hd : tree.DanglingFragment fragment value) :
          value = initializer := by
        obtain ⟨other, heq, -⟩ := hkind_eq hd
        have hvalues := eq_of_heq (NodeKind.mk.inj (heq.symm.trans hkind)).2
        exact Option.some.inj (congrArg (·.2.1) hvalues)
      cases hvalue : tree.node? initializer with
      | none => simp [hvalue] at h
      | some value =>
        simp only [hvalue, Option.bind_some] at h
        split at h
        · next hholds =>
          cases hr : tree.removeChild fragment initializer with
          | error refusal =>
            simp only [attempt, hr] at h
            refine .inl ⟨(Option.some.inj h).symm, fun other hd => ?_⟩
            obtain rfl := hinitializer hd
            obtain ⟨name', heq, hfree⟩ := hkind_eq hd
            rw [removeChild_initializer hwf hnode heq hfree] at hr
            cases hr
          | ok tree₁ =>
            simp only [attempt, hr, if_true] at h
            obtain rfl := Option.some.inj h
            refine .inr ⟨node, name, initializer, tree₁, rfl, hkind, ⟨value, hvalue, hholds.2⟩, hr,
              rfl, fun other hd => ?_⟩
            obtain ⟨holder, rest, hholder, -, htake, rfl⟩ := removeChild_cases hr
            obtain rfl := Option.some.inj (hnode.symm.trans hholder)
            have hkind' : node.kind =
                ⟨.variableDeclarationFragment, (name, some initializer, ())⟩ := hkind
            rw [hkind', take_initializer (name_ne_initializer hwf hnode hkind)] at htake
            obtain rfl := Taken.taken.inj htake
            obtain ⟨found, name', hfound, heq, -⟩ := hd.fragment
            obtain ⟨node₁, hnode₁, hsame, -⟩ := of_node?_addFlags hfound
            obtain ⟨node₂, -, -, hcut⟩ := of_node?_cut hnode₁
            rw [hsame, hcut, if_pos rfl] at heq
            cases congrArg (·.2.1) (eq_of_heq (NodeKind.mk.inj heq).2)
        · next hnot =>
          refine .inl ⟨(Option.some.inj h).symm, fun other hd => hnot ?_⟩
          obtain ⟨found, hfound, hd'⟩ := hd.value
          rw [hinitializer hd, hvalue] at hfound
          exact Option.some.inj hfound ▸ hd'
    · next hnot =>
      refine .inl ⟨(Option.some.inj h).symm, fun value hd => ?_⟩
      obtain ⟨name, heq, -⟩ := hkind_eq hd
      exact hnot name value _ heq

/-- Clearing one fragment leaves the others as they are. -/
theorem DanglingFragment.of_clear {fragment value : NodeId} {kind : NodeKind}
    (h : (((tree.setKind fragment kind).setParent child none).addFlags fragment
      .recovered).DanglingFragment other value) (hne : other ≠ fragment)
    (hshape : kind.shape ≠ .simpleName) : tree.DanglingFragment other value := by
  obtain ⟨holder, name, hholder, hkind, hfree⟩ := h.fragment
  obtain ⟨holder₁, hholder₁, -, hsame⟩ := of_node?_addFlags hholder
  obtain rfl := hsame hne.symm
  obtain ⟨holder₂, hholder₂, hflags, hcut⟩ := of_node?_cut hholder₁
  obtain ⟨found, hfound, hr, hmissing⟩ := h.value
  obtain ⟨found₁, hfound₁, hkind₁, hsame₁⟩ := of_node?_addFlags hfound
  obtain ⟨found₂, hfound₂, hflags₂, hcut₂⟩ := of_node?_cut hfound₁
  rw [if_neg hne] at hcut
  have hvalue : fragment ≠ value := by
    -- A name is no fragment.
    rintro rfl
    have hname := Node.shape_of_isMissingName hmissing
    rw [if_pos rfl] at hcut₂
    exact hshape (by rw [← hcut₂, ← hkind₁]; exact hname)
  rw [if_neg hvalue.symm] at hcut₂
  obtain rfl := hsame₁ hvalue
  refine ⟨⟨holder₂, name, hholder₂, hcut.symm.trans hkind, ?_⟩, found₂, hfound₂, ?_, ?_⟩
  · rw [Node.isProtected, ← hflags]
    exact hfree
  · rw [Node.isRecovered, ← hflags₂]
    exact hr
  · rw [Node.isMissingName, ← hcut₂]
    exact hmissing

theorem foldlM_clearInitializer_rewrites {fragments : List NodeId} (hwf : tree.WellFormed)
    (h : Rewrites tree id tree₁) (hf : ∀ fragment ∈ fragments, tree.parent? fragment = some id)
    (hfold : fragments.foldlM clearInitializer tree₁ = some tree') :
    Rewrites tree id tree' ∧ ∀ fragment,
      (fragment ∈ fragments ∨ ∀ value, ¬ tree₁.DanglingFragment fragment value) →
        ∀ value, ¬ tree'.DanglingFragment fragment value := by
  induction fragments generalizing tree₁ with
  | nil =>
    obtain rfl := Option.some.inj hfold
    exact ⟨h, fun fragment hclear => hclear.resolve_left List.not_mem_nil⟩
  | cons first rest ih =>
    obtain ⟨hparent, hf⟩ := List.forall_mem_cons.mp hf
    rw [List.foldlM_cons] at hfold
    obtain ⟨next, hnext, hfold⟩ := Option.bind_eq_some_iff.mp hfold
    have hstep : Rewrites tree id next ∧ ∀ fragment,
        (fragment = first ∨ ∀ value, ¬ tree₁.DanglingFragment fragment value) →
          ∀ value, ¬ next.DanglingFragment fragment value := by
      rcases clearInitializer_cases (h.wellFormed hwf) hnext with
        ⟨rfl, hclear⟩ | ⟨node, name, value, tree₂, hnode, hkind, hmissing, hr, rfl, hclear⟩
      · exact ⟨h, fun fragment hf => hf.elim (fun heq => heq ▸ hclear) fun hf => hf⟩
      · have hshape : node.shape = .variableDeclarationFragment := congrArg NodeKind.shape hkind
        obtain ⟨known, hknown, hres⟩ :=
          h.keeps.of_node? hnode (.inl (by rw [hshape]; decide))
        have hshape' : known.shape = .variableDeclarationFragment :=
          hres.shape_eq.symm.trans hshape
        refine ⟨.flag (.remove h ⟨known, hknown, .inr ⟨hparent, .inr hshape'⟩⟩
            (.name (h.keeps.of_isMissing hmissing)) hr) hknown (by rw [hshape']; rfl)
            (.step hparent .refl), fun fragment hf other hd => ?_⟩
        by_cases heq : fragment = first
        · exact hclear other (heq ▸ hd)
        · obtain ⟨holder, kind, hholder, -, htake, rfl⟩ := removeChild_cases hr
          obtain rfl := Option.some.inj (hnode.symm.trans hholder)
          have hsimple : kind.shape ≠ .simpleName := by
            rw [NodeKind.shape_of_take htake, show node.kind.shape = _ from hshape]
            decide
          exact hf.resolve_left heq other (hd.of_clear heq hsimple)
    obtain ⟨hrewrites, hclear⟩ := ih hstep.1 hf hfold
    refine ⟨hrewrites, fun fragment hfragment => hclear fragment ?_⟩
    rcases hfragment with hmem | hnot
    · rcases List.mem_cons.mp hmem with heq | hmem
      · exact .inr (hstep.2 fragment (.inl heq))
      · exact .inl hmem
    · exact .inr (hstep.2 fragment (.inr hnot))

theorem declaresMissing_eq_some_true_iff {fragment : NodeId} :
    tree.declaresMissing fragment = some true ↔ tree.DeclaresMissing fragment := by
  constructor
  · intro h
    obtain ⟨holder, hholder, h⟩ := Option.bind_eq_some_iff.mp h
    dsimp only at h
    split at h
    · next name initializer hkind =>
      obtain ⟨value, hvalue, h⟩ := Option.bind_eq_some_iff.mp h
      exact ⟨holder, name, initializer.1, hholder, hkind, value, hvalue, Option.some.inj h⟩
    · cases h
  · rintro ⟨holder, name, initializer, hholder, hkind, value, hvalue, hname⟩
    obtain ⟨kind, span, flags, link⟩ := holder
    cases hkind
    simp only [declaresMissing, hholder, Option.bind_eq_bind, Option.bind_some, hvalue, hname]
    rfl

/-- The fragments of a declaration that a loop drops are those with missing names. -/
theorem filterM_declaresMissing {declaration type : NodeId} {fragments missing : List NodeId}
    (hwf : tree.WellFormed) (hnode : tree.node? declaration = some node)
    (hkind : node.kind = ⟨.variableDeclarationExpression, (type, fragments, ())⟩)
    (h : fragments.filterM tree.declaresMissing = some missing) : ∃ answers : NodeId → Bool,
      (∀ fragment ∈ fragments, answers fragment = true ↔ tree.DeclaresMissing fragment) ∧
        missing = fragments.filter answers := by
  have hanswers : ∀ fragment ∈ fragments, tree.declaresMissing fragment =
      some ((tree.declaresMissing fragment).getD false) := by
    intro fragment hf
    have hmem : fragment ∈ node.kind.children := by
      rw [hkind]
      exact List.mem_append_right [type] (List.mem_append_left [] hf)
    obtain ⟨-, hlt⟩ := mem_children_of_node? hwf hnode rfl hmem
    obtain ⟨answer, ha⟩ := declaresMissing_total hwf hlt
    rw [ha]
    rfl
  rw [filterM_eq_some hanswers] at h
  refine ⟨_, fun fragment hf => ?_, (Option.some.inj h).symm⟩
  rw [← declaresMissing_eq_some_true_iff, hanswers fragment hf, Option.some.injEq]
  rfl

/-- Each child that is removed is one child less. -/
theorem length_children_attempt_removeChild {ids : List NodeId} (hwf : tree.WellFormed)
    (hdone : (tree.attempt (ids.map fun child tree => tree.removeChild parent child)).2 = true) :
    ((tree.attempt (ids.map fun child tree => tree.removeChild parent child)).1.children
      parent).length + ids.length = (tree.children parent).length := by
  induction ids generalizing tree with
  | nil => rfl
  | cons child ids ih =>
    simp only [List.map_cons, attempt] at hdone ⊢
    cases hr : tree.removeChild parent child with
    | error refusal =>
      rw [hr] at hdone
      cases hdone
    | ok next =>
      rw [hr] at hdone
      dsimp only
      have hunlinks := removeChild_unlinks hwf hr
      have hmem := (hwf.linked parent child).mpr hunlinks.attached
      have hlength := ih (hwf.unlinks hunlinks) hdone
      rw [hunlinks.children_eq, if_pos rfl] at hlength
      have hpos := List.length_pos_of_mem hmem
      rw [List.length_erase_of_mem hmem] at hlength
      rw [List.length_cons]
      omega

section Repair
variable (hwf : tree.WellFormed) (hnode : tree.node? id = some node)
include hwf hnode

/-- A statement that may be repaired is collapsed by three changes, and none of them is refused. Any
other tree stays as it is. -/
theorem collapseAssignment_cases :
    tree.collapseAssignment id = some tree ∧
      (∀ expression, ¬ tree.DanglingAssignment id expression) ∨
    ∃ expression left operator right inner first second third,
      tree.Assigns id expression left right operator node inner ∧ node.isRecovered = true ∧
      node.isProtected = false ∧ inner.isProtected = false ∧ tree.IsMissing right ∧
      tree.detach left = .ok first ∧ first.replaceChild id expression left = .ok second ∧
      second.detach right = .ok third ∧ tree.Collapses third id expression left right operator ∧
      tree.collapseAssignment id = some (third.addFlags left .recovered) := by
  have hsame {expression : NodeId} (hd : tree.DanglingAssignment id expression) :
      node.kind = ⟨.expressionStatement, (expression, ())⟩ ∧ node.isRecovered = true ∧
        node.isProtected = false := by
    obtain ⟨statement, hstatement, hd⟩ := hd.statement
    obtain rfl := Option.some.inj (hnode.symm.trans hstatement)
    exact hd
  simp only [collapseAssignment, hnode, Option.bind_eq_bind, Option.bind_some]
  split
  · next expression _ hkind =>
    have hmem : expression ∈ node.kind.children := by
      rw [hkind]
      exact List.mem_cons_self
    obtain ⟨inner, hinner⟩ := exists_child_node hwf hnode hmem
    have hexpression {other : NodeId} (hd : tree.DanglingAssignment id other) :
        other = expression := by
      have heq := (hsame hd).1.symm.trans hkind
      exact congrArg Prod.fst (eq_of_heq (NodeKind.mk.inj heq).2)
    simp only [hinner, Option.bind_some]
    split
    · next left operator right _ hkind' =>
      have hmem' : right ∈ inner.kind.children := by
        rw [hkind']
        exact List.mem_cons_of_mem left List.mem_cons_self
      obtain ⟨value, hvalue⟩ := exists_child_node hwf hinner hmem'
      simp only [hvalue, Option.bind_some]
      split
      · next hholds =>
        simp only [Bool.not_eq_true] at hholds
        obtain ⟨hrecovered, hname, hfree, hfree'⟩ := hholds
        have ha : tree.Assigns id expression left right operator node inner :=
          ⟨hwf, hnode, hkind, hinner, hkind'⟩
        obtain ⟨first, second, third, hfirst, hsecond, hthird, hc⟩ := ha.edits_collapse hfree hfree'
        refine .inr ⟨expression, left, operator, right, inner, first, second, third, ha, hrecovered,
          hfree, hfree', ⟨value, hvalue, hname⟩, hfirst, hsecond, hthird, hc, ?_⟩
        simp only [attempt, hfirst, hsecond, hthird]
        rfl
      · next hnot =>
        refine .inl ⟨rfl, fun other hd => hnot ?_⟩
        obtain rfl := hexpression hd
        obtain ⟨next, _, _, last, hnext, hkind'', hfree, missing, hmissing, hname⟩ := hd.assignment
        obtain rfl := Option.some.inj (hinner.symm.trans hnext)
        have heq := hkind''.symm.trans hkind'
        have hlast : last = right :=
          congrArg (·.2.2.1) (eq_of_heq (NodeKind.mk.inj heq).2)
        rw [hlast, hvalue] at hmissing
        obtain rfl := Option.some.inj hmissing
        exact ⟨(hsame hd).2.1, hname, by simp [(hsame hd).2.2], by simp [hfree]⟩
    · next hnot =>
      refine .inl ⟨rfl, fun other hd => ?_⟩
      obtain rfl := hexpression hd
      obtain ⟨next, left, operator, right, hnext, hkind'', -⟩ := hd.assignment
      obtain rfl := Option.some.inj (hinner.symm.trans hnext)
      exact hnot left operator right _ hkind''
  · next hnot => exact .inl ⟨rfl, fun expression hd => hnot expression _ (hsame hd).1⟩

/-- Only a left side takes the place of its assignment. -/
theorem collapseAssignment_rewrites (h : tree.collapseAssignment id = some tree') :
    Rewrites tree id tree' ∧ ∀ expression, tree'.DanglingAssignment id expression →
      tree.OnLeftSide expression := by
  rcases collapseAssignment_cases hwf hnode with
    ⟨hsame, hnone⟩ | ⟨expression, left, operator, right, inner, first, second, third, ha, -, hfree,
      hfree', hmissing, hfirst, hsecond, hthird, hc, heq⟩
  · obtain rfl := Option.some.inj (hsame.symm.trans h)
    exact ⟨.refl, fun expression hd => absurd hd (hnone expression)⟩
  · obtain rfl := Option.some.inj (heq.symm.trans h)
    have hwf₁ := hwf.detach hfirst
    have hwf₂ := hwf₁.exchanges (replaceChild_exchanges hwf₁ hsecond)
    have hwf₃ := hwf₂.detach hthird
    refine ⟨.collapse ha hfree hfree' hmissing hc hwf₃, fun other hd => ?_⟩
    obtain ⟨statement, hstatement, hkind, -⟩ := hd.statement
    obtain ⟨node₁, hnode₁, hsame, -⟩ := of_node?_addFlags hstatement
    have hkind' : (⟨.expressionStatement, (other, ())⟩ : NodeKind) =
        ⟨.expressionStatement, (left, ())⟩ := by
      rw [← hkind, hsame, (hc.of_node? hnode hnode₁).2, if_pos rfl]
    obtain rfl : other = left := congrArg Prod.fst (eq_of_heq (NodeKind.mk.inj hkind').2)
    exact ⟨expression, inner, operator, right, ha.inner_eq, ha.inner_kind⟩

theorem clearInitializers_rewrites (h : tree.clearInitializers id = some tree') :
    Rewrites tree id tree' ∧ ∀ value, ¬ tree'.DanglingInitializer id value := by
  simp only [clearInitializers, hnode, Option.bind_eq_bind, Option.bind_some] at h
  split at h
  · next type fragments _ hkind =>
    have hfragments : ∀ fragment ∈ fragments, tree.parent? fragment = some id := by
      intro fragment hf
      have hmem : fragment ∈ node.kind.children := by
        rw [hkind]
        exact List.mem_append_right [type] (List.mem_append_left [] hf)
      exact (mem_children_of_node? hwf hnode rfl hmem).1
    obtain ⟨hrewrites, hclear⟩ := foldlM_clearInitializer_rewrites hwf .refl hfragments h
    refine ⟨hrewrites, fun value hd => ?_⟩
    obtain ⟨other, type', fragments', fragment, hother, hkind', hmem, hd⟩ := hd
    have hsame : other.kind = node.kind := by
      rcases hrewrites.kind_cases hnode hother with hsame | ⟨-, hs | hs⟩ | ⟨-, hs | hs | hs⟩
      · exact hsame
      all_goals
        rw [Node.shape, hkind] at hs
        cases hs
    have heq : fragments' = fragments := congrArg (·.2.1)
      (eq_of_heq (NodeKind.mk.inj (hkind'.symm.trans (hsame.trans hkind))).2)
    exact hclear fragment (.inl (heq ▸ hmem)) value hd
  · next hnot =>
    obtain rfl := Option.some.inj h
    refine ⟨.refl, fun value hd => ?_⟩
    obtain ⟨other, type, fragments, -, hother, hkind, -⟩ := hd
    obtain rfl := Option.some.inj (hnode.symm.trans hother)
    exact hnot type fragments _ hkind

theorem dropForDeclaration_rewrites (h : tree.dropForDeclaration id = some tree') :
    Rewrites tree id tree' := by
  simp only [dropForDeclaration, hnode, Option.bind_eq_bind, Option.bind_some] at h
  split at h
  · next declaration rest hkind =>
    have hmem : declaration ∈ node.kind.children := by
      rw [hkind]
      exact List.mem_cons_self
    obtain ⟨hparent, hlt⟩ := mem_children_of_node? hwf hnode rfl hmem
    obtain ⟨header, hheader⟩ := node?_of_lt_size hlt
    simp only [hheader, Option.bind_some] at h
    split at h
    · next type fragments _ hkind' =>
      have hshape : header.shape = .variableDeclarationExpression := congrArg NodeKind.shape hkind'
      have hclears : tree.Clears id declaration := ⟨header, hheader, .inr ⟨hparent, .inl hshape⟩⟩
      have hclears' : tree.Clears id id :=
        ⟨node, hnode, .inl ⟨rfl, congrArg NodeKind.shape hkind⟩⟩
      have hsole : tree.SoleDeclaration id declaration fragments :=
        ⟨⟨node, rest, hnode, hkind⟩, header, type, hheader, hkind'⟩
      obtain ⟨missing, hmissing, h⟩ := Option.bind_eq_some_iff.mp h
      obtain ⟨answers, hanswers, rfl⟩ := filterM_declaresMissing hwf hheader hkind' hmissing
      have hdeclares : ∀ fragment ∈ fragments.filter answers, tree.DeclaresMissing fragment :=
        fun fragment hf =>
          (hanswers fragment (List.mem_filter.mp hf).1).mp (List.mem_filter.mp hf).2
      have hremoved : Rewrites tree id (tree.attempt ((fragments.filter answers).map
          fun fragment tree => tree.removeChild declaration fragment)).1 := by
        refine Rewrites.refl.attempt fun change hc before after hb hok => ?_
        obtain ⟨fragment, hf, rfl⟩ := List.mem_map.mp hc
        exact .remove hb hclears (.fragment hsole (List.mem_filter.mp hf).1 (hdeclares fragment hf))
          hok
      split at h
      · exact Option.some.inj h ▸ .refl
      · next hsome =>
        split at h
        · exact Option.some.inj h ▸ hremoved
        · next hdone =>
          have hflagged :=
            Rewrites.flag hremoved hheader (by rw [hshape]; rfl) (.step hparent .refl)
          split at h
          · next hone =>
            have hchildren : tree.children declaration = type :: (fragments ++ []) := by
              rw [children_of_node? hheader, hkind']
              rfl
            have hlength := length_children_attempt_removeChild hwf (not_not.mp hdone)
            rw [children_congr (congrFun (skeleton_addFlags _ _ _) declaration)] at hone
            rw [hone, hchildren, List.append_nil, List.length_cons] at hlength
            have hall : ∀ fragment ∈ fragments, answers fragment = true :=
              List.length_filter_eq_length_iff.mp (by omega)
            have hne : fragments ≠ [] := by
              rintro rfl
              exact hsome rfl
            have hspare : tree.Spare id declaration :=
              .declaration hsole hne fun fragment hf => (hanswers fragment hf).mp (hall fragment hf)
            refine Option.some.inj h ▸ hflagged.attempt fun change hc before after hb hok => ?_
            obtain rfl := List.mem_singleton.mp hc
            exact .remove hb hclears' hspare hok
          · exact Option.some.inj h ▸ hflagged
    · exact Option.some.inj h ▸ .refl
  · exact Option.some.inj h ▸ .refl

omit hwf in
theorem flagTruncated_rewrites (hshape : node.shape.isSuspect = true)
    (h : tree.flagTruncated id = some tree') : Rewrites tree id tree' := by
  simp only [flagTruncated, hnode, Option.bind_eq_bind, Option.bind_some] at h
  split at h
  · exact Option.some.inj h ▸ .refl
  · obtain ⟨inner, -, h⟩ := Option.bind_eq_some_iff.mp h
    split at h
    · exact Option.some.inj h ▸ .flag .refl hnode hshape .refl
    · exact Option.some.inj h ▸ .refl

/-- A repair makes changes of the known kinds only. -/
theorem repair_rewrites {inBody : Bool} (h : tree.repair id node.shape inBody = some tree') :
    Rewrites tree id tree' := by
  unfold repair at h
  split at h
  · exact (collapseAssignment_rewrites hwf hnode h).1
  · exact dropForDeclaration_rewrites hwf hnode h
  · exact (clearInitializers_rewrites hwf hnode h).1
  · next hshape =>
    split at h
    · exact Option.some.inj h ▸ .refl
    · exact flagTruncated_rewrites hnode (by rw [hshape]; rfl) h
  · next hshape =>
    split at h
    · exact Option.some.inj h ▸ .refl
    · exact flagTruncated_rewrites hnode (by rw [hshape]; rfl) h
  · exact Option.some.inj h ▸ .refl

end Repair
end SyntaxRecovery.Tree
