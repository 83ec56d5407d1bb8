import SyntaxRecovery.Proofs.Tree.Subtree
import SyntaxRecovery.Propagation.Propagate

/-! The repairs of a well-formed tree. Each finds every node it asks for and changes only what is
below the node it is made at, whichever of its changes the tree refuses. -/
namespace SyntaxRecovery.Tree
variable {tree tree' changed : Tree} {id parent child old new : NodeId}

namespace ChangedBelow

theorem removeChild (h : ChangedBelow id tree tree') (hwf : tree.WellFormed)
    (hp : tree.Region id parent) (hr : tree'.removeChild parent child = .ok changed) :
    ChangedBelow id tree changed :=
  h.unlinks hwf (removeChild_unlinks h.wellFormed hr) hp

theorem replaceChild (h : ChangedBelow id tree tree') (hwf : tree.WellFormed)
    (hp : tree.Region id parent) (hnew : tree.Region id new) (hne : new ≠ id)
    (hr : tree'.replaceChild parent old new = .ok changed) : ChangedBelow id tree changed :=
  h.exchanges hwf (replaceChild_exchanges h.wellFormed hr) hp hnew hne

theorem detach (h : ChangedBelow id tree tree') (hwf : tree.WellFormed) (hid : id < tree.size)
    (hp : ∀ parent, tree'.parent? child = some parent → tree.Region id parent)
    (hd : tree'.detach child = .ok changed) : ChangedBelow id tree changed := by
  rcases detach_cases h.wellFormed hd with ⟨-, rfl⟩ | ⟨parent, hparent, hu | he⟩
  · exact h
  · exact h.unlinks hwf hu (hp parent hparent)
  · have hne : tree'.size ≠ id := fun heq =>
      Nat.lt_irrefl _ (Nat.lt_of_lt_of_le hid (heq ▸ h.size_le))
    exact h.exchanges hwf he (hp parent hparent) (.inr h.size_le) hne

theorem addFlags (h : ChangedBelow id tree tree') (hwf : tree.WellFormed) (other : NodeId)
    (flags : NodeFlags) : ChangedBelow id tree (tree'.addFlags other flags) :=
  h.trans hwf (.of_skeleton h.wellFormed rfl (skeleton_addFlags tree' other flags))

/-- Changes made in order, up to the first that is refused. -/
theorem attempt (h : ChangedBelow id tree tree') {changes : List (Tree → Except TreeError Tree)}
    (hc : ∀ change ∈ changes, ∀ {before after}, ChangedBelow id tree before →
      change before = .ok after → ChangedBelow id tree after) :
    ChangedBelow id tree (tree'.attempt changes).1 := by
  induction changes generalizing tree' with
  | nil => exact h
  | cons change changes ih =>
    obtain ⟨hchange, hchanges⟩ := List.forall_mem_cons.mp hc
    unfold Tree.attempt
    split
    · next hok => exact ih (hchange h hok) hchanges
    · exact h

end ChangedBelow

theorem parent?_of_detach (hwf : tree.WellFormed) (hd : tree.detach child = .ok changed)
    (hid : id < tree.size) (hne : id ≠ child) : changed.parent? id = tree.parent? id := by
  rcases detach_cases hwf hd with ⟨-, rfl⟩ | ⟨parent, -, hu | he⟩
  · rfl
  · rw [hu.parent?_eq, if_neg hne]
  · rw [he.parent?_eq, if_neg (Nat.ne_of_lt hid), if_neg hne]

/-- Where the question always has an answer, filtering by it does. -/
theorem filterM_eq_some {f : NodeId → Option Bool} {p : NodeId → Bool} {ids : List NodeId}
    (h : ∀ id ∈ ids, f id = some (p id)) : ids.filterM f = some (ids.filter p) := by
  have haux (found : List NodeId) :
      ids.filterAuxM f found = some ((ids.filter p).reverse ++ found) := by
    induction ids generalizing found with
    | nil => rfl
    | cons id ids ih =>
      obtain ⟨hid, hids⟩ := List.forall_mem_cons.mp h
      simp only [List.filterAuxM, hid, Option.bind_eq_bind, Option.bind_some]
      rw [ih hids]
      cases hp : p id <;> simp [hp]
  simp [List.filterM, haux]

section Repair
variable (hwf : tree.WellFormed) (hid : id < tree.size)
include hwf

theorem mem_children_of_node? {node : Node} {ids : List NodeId} (hnode : tree.node? id = some node)
    (hids : node.kind.children = ids) (hchild : child ∈ ids) :
    tree.parent? child = some id ∧ child < tree.size := by
  have hmem : child ∈ tree.children id := by
    rw [children_of_node? hnode, hids]
    exact hchild
  exact ⟨(hwf.linked id child).mp hmem, hwf.child_lt_size hmem⟩

theorem exists_child_node {node : Node} (hnode : tree.node? id = some node)
    (hchild : child ∈ node.kind.children) : ∃ other, tree.node? child = some other :=
  node?_of_lt_size (mem_children_of_node? hwf hnode rfl hchild).2

include hid

/-- The three changes that collapse an assignment. -/
theorem changedBelow_collapse {expression left right : NodeId}
    (hexpression : tree.parent? expression = some id) (hleft : tree.parent? left = some expression)
    (hright : tree.parent? right = some expression) (hne : right ≠ left) :
    ChangedBelow id tree (tree.attempt
      [(·.detach left), (·.replaceChild id expression left), (·.detach right)]).1 := by
  have hbelow : tree.Below id expression := .step hexpression .refl
  have hregion : tree.Region id left := .inl (.step hleft hbelow)
  have hleft' : left ≠ id := by
    rintro rfl
    exact Below.not_parent hwf hleft hbelow
  have hright' : right ≠ expression := hwf.ne_of_parent? hright
  simp only [attempt]
  split
  · next first hfirst =>
    have h1 := (ChangedBelow.refl hwf).detach hwf hid
      (fun parent hp => .inl (Option.some.inj (hleft.symm.trans hp) ▸ hbelow)) hfirst
    split
    · next second hsecond =>
      have h2 := h1.replaceChild hwf (.inl .refl) hregion hleft' hsecond
      split
      · next third hthird =>
        refine h2.detach hwf hid (fun parent hp => ?_) hthird
        have he := replaceChild_exchanges h1.wellFormed hsecond
        rw [he.parent?_eq, if_neg hne, if_neg hright', parent?_of_detach hwf hfirst
          (lt_size_of_parent? hright) hne, hright] at hp
        exact .inl (Option.some.inj hp ▸ hbelow)
      · exact h2
    · exact h1
  · exact .refl hwf

theorem collapseAssignment_total :
    ∃ changed, tree.collapseAssignment id = some changed ∧ ChangedBelow id tree changed := by
  obtain ⟨statement, hstatement⟩ := node?_of_lt_size hid
  simp only [collapseAssignment, hstatement, Option.bind_eq_bind, Option.bind_some]
  split
  · next expression _ hkind =>
    have hkinds : statement.kind.children = [expression] := by
      rw [hkind]
      rfl
    obtain ⟨hexpression, hlt⟩ : tree.parent? expression = some id ∧ expression < tree.size :=
      mem_children_of_node? hwf hstatement hkinds (by simp)
    obtain ⟨inner, hinner⟩ := node?_of_lt_size hlt
    simp only [hinner, Option.bind_some]
    split
    · next left _ right _ hkind' =>
      have hkinds' : inner.kind.children = [left, right] := by
        rw [hkind']
        rfl
      obtain ⟨hleft, -⟩ : tree.parent? left = some expression ∧ left < tree.size :=
        mem_children_of_node? hwf hinner hkinds' (by simp)
      obtain ⟨hright, hlt'⟩ : tree.parent? right = some expression ∧ right < tree.size :=
        mem_children_of_node? hwf hinner hkinds' (by simp)
      obtain ⟨rightNode, hrightNode⟩ := node?_of_lt_size hlt'
      have hne : right ≠ left := by
        have hnodup := hwf.nodup expression
        rw [children_of_node? hinner, hkinds'] at hnodup
        rintro rfl
        simp at hnodup
      have h := changedBelow_collapse hwf hid hexpression hleft hright hne
      simp only [hrightNode, Option.bind_some]
      split
      · refine ⟨_, rfl, ?_⟩
        split
        · exact h.addFlags hwf _ _
        · exact h
      · exact ⟨tree, rfl, .refl hwf⟩
    · exact ⟨tree, rfl, .refl hwf⟩
  · exact ⟨tree, rfl, .refl hwf⟩

theorem declaresMissing_total : ∃ answer, tree.declaresMissing id = some answer := by
  obtain ⟨node, hnode⟩ := node?_of_lt_size hid
  simp only [declaresMissing, hnode, Option.bind_eq_bind, Option.bind_some]
  split
  · next name _ hkind =>
    have hmem : name ∈ node.kind.children := by
      rw [hkind]
      exact List.mem_cons_self
    obtain ⟨nameNode, hname⟩ := exists_child_node hwf hnode hmem
    simp only [hname, Option.bind_some]
    exact ⟨_, rfl⟩
  · exact ⟨false, rfl⟩

theorem dropForDeclaration_total :
    ∃ changed, tree.dropForDeclaration id = some changed ∧ ChangedBelow id tree changed := by
  obtain ⟨statement, hstatement⟩ := node?_of_lt_size hid
  simp only [dropForDeclaration, hstatement, Option.bind_eq_bind, Option.bind_some]
  split
  · next declaration _ hkind =>
    have hmem : declaration ∈ statement.kind.children := by
      rw [hkind]
      exact List.mem_cons_self
    obtain ⟨hdeclaration, hlt⟩ := mem_children_of_node? hwf hstatement rfl hmem
    obtain ⟨header, hheader⟩ := node?_of_lt_size hlt
    simp only [hheader, Option.bind_some]
    split
    · next type fragments _ hkind' =>
      have hanswers : ∀ fragment ∈ fragments, tree.declaresMissing fragment =
          some ((tree.declaresMissing fragment).getD false) := by
        intro fragment hf
        have hmem : fragment ∈ header.kind.children := by
          rw [hkind']
          exact List.mem_append_right [type] (List.mem_append_left [] hf)
        obtain ⟨-, hlt⟩ := mem_children_of_node? hwf hheader rfl hmem
        obtain ⟨answer, ha⟩ := declaresMissing_total hwf hlt
        rw [ha]
        rfl
      have hregion : tree.Region id declaration := .inl (.step hdeclaration .refl)
      rw [filterM_eq_some hanswers, Option.bind_some]
      generalize fragments.filter _ = missing
      have h : ChangedBelow id tree (tree.attempt (missing.map fun fragment tree =>
          tree.removeChild declaration fragment)).1 := by
        refine (ChangedBelow.refl hwf).attempt fun change hc before after hb hok => ?_
        obtain ⟨fragment, -, rfl⟩ := List.mem_map.mp hc
        exact hb.removeChild hwf hregion hok
      split
      · exact ⟨tree, rfl, .refl hwf⟩
      · split
        · exact ⟨_, rfl, h⟩
        · have h' := h.addFlags hwf declaration .recovered
          split
          · refine ⟨_, rfl, h'.attempt fun change hc before after hb hok => ?_⟩
            obtain rfl := List.mem_singleton.mp hc
            exact hb.removeChild hwf (.inl .refl) hok
          · exact ⟨_, rfl, h'⟩
    · exact ⟨tree, rfl, .refl hwf⟩
  · exact ⟨tree, rfl, .refl hwf⟩

omit hid in
theorem clearInitializer_total {fragment : NodeId} (h : ChangedBelow id tree tree')
    (hf : tree.Region id fragment) (hlt : fragment < tree'.size) :
    ∃ changed, clearInitializer tree' fragment = some changed ∧ ChangedBelow id tree changed := by
  obtain ⟨node, hnode⟩ := node?_of_lt_size hlt
  simp only [clearInitializer, hnode, Option.bind_eq_bind, Option.bind_some]
  split
  · next name initializer _ hkind =>
    have hmem : initializer ∈ node.kind.children := by
      rw [hkind]
      exact List.mem_cons_of_mem _ List.mem_cons_self
    obtain ⟨value, hvalue⟩ := exists_child_node h.wellFormed hnode hmem
    have h' : ChangedBelow id tree (tree'.attempt [(·.removeChild fragment initializer)]).1 := by
      refine h.attempt fun change hc before after hb hok => ?_
      obtain rfl := List.mem_singleton.mp hc
      exact hb.removeChild hwf hf hok
    simp only [hvalue, Option.bind_some]
    split
    · refine ⟨_, rfl, ?_⟩
      split
      · exact h'.addFlags hwf _ _
      · exact h'
    · exact ⟨tree', rfl, h⟩
  · exact ⟨tree', rfl, h⟩

omit hid in
theorem foldlM_clearInitializer {fragments : List NodeId} (h : ChangedBelow id tree tree')
    (hf : ∀ fragment ∈ fragments, tree.Region id fragment ∧ fragment < tree.size) :
    ∃ changed, fragments.foldlM clearInitializer tree' = some changed ∧
      ChangedBelow id tree changed := by
  induction fragments generalizing tree' with
  | nil => exact ⟨tree', rfl, h⟩
  | cons fragment fragments ih =>
    obtain ⟨⟨hregion, hlt⟩, hf⟩ := List.forall_mem_cons.mp hf
    obtain ⟨next, hnext, h'⟩ :=
      clearInitializer_total hwf h hregion (Nat.lt_of_lt_of_le hlt h.size_le)
    obtain ⟨changed, hchanged, h''⟩ := ih h' hf
    exact ⟨changed, by rw [List.foldlM_cons, hnext]; exact hchanged, h''⟩

theorem clearInitializers_total :
    ∃ changed, tree.clearInitializers id = some changed ∧ ChangedBelow id tree changed := by
  obtain ⟨statement, hstatement⟩ := node?_of_lt_size hid
  simp only [clearInitializers, hstatement, Option.bind_eq_bind, Option.bind_some]
  split
  · next type fragments _ hkind =>
    have hfragments : ∀ fragment ∈ fragments, tree.Region id fragment ∧ fragment < tree.size := by
      intro fragment hf
      have hmem : fragment ∈ statement.kind.children := by
        rw [hkind]
        exact List.mem_append_right [type] (List.mem_append_left [] hf)
      obtain ⟨hparent, hlt⟩ := mem_children_of_node? hwf hstatement rfl hmem
      exact ⟨.inl (.step hparent .refl), hlt⟩
    exact foldlM_clearInitializer hwf (.refl hwf) hfragments
  · exact ⟨tree, rfl, .refl hwf⟩

theorem flagTruncated_total :
    ∃ changed, tree.flagTruncated id = some changed ∧ ChangedBelow id tree changed := by
  obtain ⟨node, hnode⟩ := node?_of_lt_size hid
  simp only [flagTruncated, hnode, Option.bind_eq_bind, Option.bind_some]
  split
  · exact ⟨tree, rfl, .refl hwf⟩
  · next value hvalue =>
    have hmem : value ∈ node.kind.children := by
      split at hvalue
      · next type values _ hkind =>
        rw [hkind]
        exact List.mem_append_right [type] (List.mem_append_left [] (List.mem_of_getLast? hvalue))
      · next type other _ hkind =>
        obtain rfl := Option.some.inj hvalue
        rw [hkind]
        exact List.mem_cons_of_mem type List.mem_cons_self
      · cases hvalue
    obtain ⟨inner, hinner⟩ := exists_child_node hwf hnode hmem
    simp only [hinner, Option.bind_some]
    refine ⟨_, rfl, ?_⟩
    split
    · exact (ChangedBelow.refl hwf).addFlags hwf _ _
    · exact .refl hwf

/-- Every repair comes to an end and changes only what is below its node. -/
theorem repair_total (shape : NodeShape) (inBody : Bool) :
    ∃ changed, tree.repair id shape inBody = some changed ∧ ChangedBelow id tree changed := by
  unfold repair
  split
  · exact collapseAssignment_total hwf hid
  · exact dropForDeclaration_total hwf hid
  · exact clearInitializers_total hwf hid
  · split
    · exact ⟨tree, rfl, .refl hwf⟩
    · exact flagTruncated_total hwf hid
  · split
    · exact ⟨tree, rfl, .refl hwf⟩
    · exact flagTruncated_total hwf hid
  · exact ⟨tree, rfl, .refl hwf⟩

end Repair
section Written
variable {node : Node}

/-- No name was made up by recovery. -/
def NamesWritten (tree : Tree) : Prop :=
  ∀ id node, tree.node? id = some node → node.isMissingName = false

/-- No annotation has a value. -/
def AnnotationsPlain (tree : Tree) : Prop :=
  ∀ id node, tree.node? id = some node →
    node.shape ≠ .annotationNormal ∧ node.shape ≠ .annotationSingle

theorem collapseAssignment_of_written (hwf : tree.WellFormed) (h : tree.NamesWritten)
    (hnode : tree.node? id = some node) : tree.collapseAssignment id = some tree := by
  simp only [collapseAssignment, hnode, Option.bind_eq_bind, Option.bind_some]
  split
  · next expression _ hkind =>
    have hmem : expression ∈ node.kind.children := by
      rw [hkind]
      exact List.mem_cons_self
    obtain ⟨inner, hinner⟩ := exists_child_node hwf hnode hmem
    simp only [hinner, Option.bind_some]
    split
    · next left _ right _ hkind' =>
      have hmem' : right ∈ inner.kind.children := by
        rw [hkind']
        exact List.mem_cons_of_mem left List.mem_cons_self
      obtain ⟨value, hvalue⟩ := exists_child_node hwf hinner hmem'
      simp [hvalue, h right value hvalue]
    · rfl
  · rfl

theorem dropForDeclaration_of_written (hwf : tree.WellFormed) (h : tree.NamesWritten)
    (hnode : tree.node? id = some node) : tree.dropForDeclaration id = some tree := by
  simp only [dropForDeclaration, hnode, Option.bind_eq_bind, Option.bind_some]
  split
  · next declaration _ hkind =>
    have hmem : declaration ∈ node.kind.children := by
      rw [hkind]
      exact List.mem_cons_self
    obtain ⟨header, hheader⟩ := exists_child_node hwf hnode hmem
    simp only [hheader, Option.bind_some]
    split
    · next type fragments _ hkind' =>
      have hanswers : ∀ fragment ∈ fragments, tree.declaresMissing fragment = some false := by
        intro fragment hf
        have hmem' : fragment ∈ header.kind.children := by
          rw [hkind']
          exact List.mem_append_right [type] (List.mem_append_left [] hf)
        obtain ⟨inner, hinner⟩ := exists_child_node hwf hheader hmem'
        simp only [declaresMissing, hinner, Option.bind_eq_bind, Option.bind_some]
        split
        · next name _ hkind'' =>
          have hname : name ∈ inner.kind.children := by
            rw [hkind'']
            exact List.mem_cons_self
          obtain ⟨value, hvalue⟩ := exists_child_node hwf hinner hname
          simp [hvalue, h name value hvalue]
        · rfl
      rw [filterM_eq_some hanswers]
      simp
    · rfl
  · rfl

theorem clearInitializers_of_written (hwf : tree.WellFormed) (h : tree.NamesWritten)
    (hnode : tree.node? id = some node) : tree.clearInitializers id = some tree := by
  simp only [clearInitializers, hnode, Option.bind_eq_bind, Option.bind_some]
  split
  · next type fragments _ hkind =>
    have hfragments : ∀ fragment ∈ fragments, clearInitializer tree fragment = some tree := by
      intro fragment hf
      have hmem : fragment ∈ node.kind.children := by
        rw [hkind]
        exact List.mem_append_right [type] (List.mem_append_left [] hf)
      obtain ⟨inner, hinner⟩ := exists_child_node hwf hnode hmem
      simp only [clearInitializer, hinner, Option.bind_eq_bind, Option.bind_some]
      split
      · next name initializer _ hkind' =>
        have hmem' : initializer ∈ inner.kind.children := by
          rw [hkind']
          exact List.mem_cons_of_mem name List.mem_cons_self
        obtain ⟨value, hvalue⟩ := exists_child_node hwf hinner hmem'
        simp [hvalue, h initializer value hvalue]
      · rfl
    clear hkind
    induction fragments with
    | nil => rfl
    | cons fragment fragments ih =>
      obtain ⟨hf, hfragments⟩ := List.forall_mem_cons.mp hfragments
      rw [List.foldlM_cons, hf]
      exact ih hfragments
  · rfl

end Written
end SyntaxRecovery.Tree
