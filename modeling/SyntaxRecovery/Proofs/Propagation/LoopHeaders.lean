import SyntaxRecovery.Proofs.Propagation.Idioms
import SyntaxRecovery.Proofs.Propagation.Removal
import SyntaxRecovery.Proofs.Tree.Arena

/-! What becomes of the header of a `for` statement when declarations of missing names are dropped.
The changes go through or leave the tree as it was, but for one case: a loop that may not be changed
keeps a declaration that has lost all that it declared. -/
namespace SyntaxRecovery

namespace NodeKind
variable {type fragment : NodeId} {fragments : List NodeId}

/-- A declaration in the header of a loop. -/
def declaration (type : NodeId) (fragments : List NodeId) : NodeKind :=
  ⟨.variableDeclarationExpression, (type, fragments, ())⟩

/-- A `for` statement. -/
def loop (initializers : List NodeId) (condition : Option NodeId) (updaters : List NodeId)
    (body : NodeId) : NodeKind :=
  ⟨.forStatement, (initializers, condition, updaters, body, ())⟩

theorem children_declaration : (declaration type fragments).children = type :: fragments :=
  congrArg (type :: ·) (List.append_nil fragments)

theorem take_fragment (hne : type ≠ fragment) (hmem : fragment ∈ fragments) :
    (declaration type fragments).take fragment =
      .taken (declaration type (fragments.erase fragment)) := by
  simp only [declaration, take, Record.take, NodeShape.fields, FieldType.take, if_neg hne,
    if_pos hmem]
  rfl

theorem take_initializer (id : NodeId) (condition : Option NodeId) (updaters : List NodeId)
    (body : NodeId) : (loop [id] condition updaters body).take id =
      .taken (loop [] condition updaters body) := by
  simp only [loop, take, Record.take, NodeShape.fields, FieldType.take, List.mem_singleton, if_true,
    List.erase_cons_head]
  rfl

end NodeKind

namespace Tree
variable {tree tree' : Tree} {loop id : NodeId}

/-- A loop whose only initializer is a declaration. -/
structure LoopHeader (tree : Tree) (loop : NodeId) where
  statement : Node
  declaration : NodeId
  condition : Option NodeId
  updaters : List NodeId
  body : NodeId
  node : Node
  type : NodeId
  fragments : List NodeId
  statement_eq : tree.node? loop = some statement
  statement_kind : statement.kind = .loop [declaration] condition updaters body
  node_eq : tree.node? declaration = some node
  node_kind : node.kind = .declaration type fragments

namespace LoopHeader
variable (header : tree.LoopHeader loop)

/-- The fragments that declare a variable under a missing name. -/
def missing : List NodeId := header.fragments.filter (tree.declaresMissing · = some true)

/-- The other fragments. -/
def written : List NodeId := header.fragments.filter (tree.declaresMissing · ≠ some true)

/-- The changes that drop the missing names, and the declaration with the last of its fragments. -/
def edits : List TreeEdit :=
  header.missing.map (.removeChild header.declaration) ++
    .addFlags header.declaration .recovered ::
      if header.written = [] then [.removeChild loop header.declaration] else []

def removals : List (Tree → Except TreeError Tree) :=
  header.missing.map fun fragment tree => tree.removeChild header.declaration fragment

def changes : List (Tree → Except TreeError Tree) :=
  header.edits.map fun edit tree => edit.apply tree

/-- What has become of the tree when the declaration has lost its missing fragments. `kept` tells
whether the declaration is still in the header. -/
structure LosesFragments (tree' : Tree) (kept : Bool) : Prop where
  loop_eq : tree'.node? loop = some { header.statement with
    kind := .loop (if kept then [header.declaration] else []) header.condition header.updaters
      header.body }
  declaration_eq : tree'.node? header.declaration = some { header.node with
    kind := .declaration header.type header.written
    flags := header.node.flags.union .recovered
    parent := if kept then some loop else none }
  fragment_eq : ∀ fragment ∈ header.missing, tree'.node? fragment =
    (tree.node? fragment).map fun node => { node with parent := none }
  other_eq : ∀ other, other ≠ loop → other ≠ header.declaration → other ∉ header.missing →
    tree'.node? other = tree.node? other
  size_eq : tree'.size = tree.size
  root_eq : tree'.root = tree.root

theorem declaration_mem : header.declaration ∈ header.statement.kind.children := by
  rw [header.statement_kind]
  exact List.mem_cons_self

theorem children_eq : tree.children header.declaration = header.type :: header.fragments := by
  rw [children_of_node? header.node_eq, header.node_kind, NodeKind.children_declaration]

theorem parent?_declaration (hwf : tree.WellFormed) :
    tree.parent? header.declaration = some loop :=
  (mem_children_of_node? hwf header.statement_eq rfl header.declaration_mem).1

theorem parent?_fragment (hwf : tree.WellFormed) {fragment : NodeId}
    (hmem : fragment ∈ header.fragments) : tree.parent? fragment = some header.declaration := by
  refine (hwf.linked header.declaration fragment).mp ?_
  rw [header.children_eq]
  exact List.mem_cons_of_mem header.type hmem

theorem nodup (hwf : tree.WellFormed) :
    header.type ∉ header.fragments ∧ header.fragments.Nodup := by
  have hnodup := hwf.nodup header.declaration
  rwa [header.children_eq, List.nodup_cons] at hnodup

theorem written_eq : header.written = header.fragments.filter (· ∉ header.missing) := by
  refine List.filter_congr fun fragment hmem => ?_
  simp [missing, hmem]

theorem filterM_eq (hwf : tree.WellFormed) :
    header.fragments.filterM tree.declaresMissing = some header.missing := by
  refine filterM_eq_some fun fragment hmem => ?_
  have hknown := lt_size_of_parent? (header.parent?_fragment hwf hmem)
  obtain ⟨answer, hanswer⟩ := declaresMissing_total hwf hknown
  rw [hanswer]
  cases answer <;> rfl

end LoopHeader

/-- Changes made after others are made to what those left, if they all went through. -/
theorem attempt_append (tree : Tree) (first rest : List (Tree → Except TreeError Tree)) :
    tree.attempt (first ++ rest) =
      if (tree.attempt first).2 then (tree.attempt first).1.attempt rest
      else tree.attempt first := by
  induction first generalizing tree with
  | nil => rfl
  | cons change first ih =>
    cases hchange : change tree with
    | error refusal => simp [attempt, hchange]
    | ok next => simp only [List.cons_append, attempt, hchange, ih next]

/-- A parent that may not be changed keeps its children. -/
theorem removeChild_of_isProtected {parent child : NodeId} {holder : Node}
    (hholder : tree.node? parent = some holder) (hprotected : holder.isProtected = true) :
    tree.removeChild parent child = .error (.protectedNode parent) := by
  simp [removeChild, findUnprotected, find_eq_ok_iff.mpr hholder, bind, Except.bind, hprotected]

/-- A declaration that may be changed gives up any of its fragments. -/
theorem attempt_removeChild {declaration type : NodeId} {node : Node} {fragments ids : List NodeId}
    (hnode : tree.node? declaration = some node)
    (hkind : node.kind = .declaration type fragments) (hfree : node.isProtected = false)
    (htype : type ∉ fragments) (hfragments : fragments.Nodup) (hnodup : ids.Nodup)
    (hids : ∀ fragment ∈ ids, fragment ∈ fragments ∧ fragment < tree.size ∧
      fragment ≠ declaration) :
    ∃ changed, tree.attempt (ids.map fun fragment tree => tree.removeChild declaration fragment) =
        (changed, true) ∧ changed.size = tree.size ∧ changed.root = tree.root ∧
      ∀ other, changed.node? other = (tree.node? other).map fun node => { node with
        kind := if other = declaration then .declaration type (fragments.filter (· ∉ ids))
          else node.kind
        parent := if other ∈ ids then none else node.parent } := by
  induction ids generalizing tree node fragments with
  | nil =>
    refine ⟨tree, rfl, rfl, rfl, fun other => ?_⟩
    by_cases heq : other = declaration
    · subst heq
      simp [hnode, ← hkind]
    · simp [heq]
  | cons fragment ids ih =>
    obtain ⟨⟨hmem, hknown, hne⟩, hrest⟩ := List.forall_mem_cons.mp hids
    obtain ⟨hnot, hnodup⟩ := List.nodup_cons.mp hnodup
    have htaken :
        node.kind.take fragment = .taken (.declaration type (fragments.erase fragment)) := by
      rw [hkind]
      exact NodeKind.take_fragment (fun heq => htype (heq ▸ hmem)) hmem
    obtain ⟨inner, hinner⟩ := node?_of_lt_size hknown
    have hremove := removeChild_eq_ok hnode hfree hinner htaken
    have hnode' :
        ((tree.setKind declaration (.declaration type (fragments.erase fragment))).setParent
        fragment none).node? declaration =
          some { node with kind := .declaration type (fragments.erase fragment) } := by
      rw [node?_cut, hnode, Option.map_some, if_pos rfl, if_neg hne.symm]
    obtain ⟨changed, hattempt, hsize, hroot, heach⟩ := ih hnode' rfl hfree
      (fun hm => htype (List.mem_of_mem_erase hm)) (hfragments.erase fragment) hnodup
      fun other ho => by
        obtain ⟨hmem', hknown', hne'⟩ := hrest other ho
        refine ⟨(hfragments.mem_erase_iff).mpr ⟨fun heq => hnot (heq ▸ ho), hmem'⟩, ?_, hne'⟩
        rwa [size_setParent, size_setKind]
    refine ⟨changed, ?_, hsize.trans (by simp), hroot, fun other => ?_⟩
    · simp only [List.map_cons, attempt, hremove]
      exact hattempt
    · have hfilter : (fragments.erase fragment).filter (· ∉ ids) =
          fragments.filter (· ∉ fragment :: ids) := by
        rw [hfragments.erase_eq_filter, List.filter_filter]
        exact List.filter_congr fun x _ => by grind
      rw [heach, node?_cut, Option.map_map, hfilter]
      congr 1
      funext known
      simp only [Function.comp_apply, Node.mk.injEq]
      grind

namespace LoopHeader
variable (header : tree.LoopHeader loop)

/-- The fragments go first. What comes behind them is made where all of them could be taken out. -/
theorem attempt_changes : tree.attempt header.changes =
    if (tree.attempt header.removals).2 then
      ((tree.attempt header.removals).1.addFlags header.declaration .recovered).attempt
        (if header.written = [] then [(·.removeChild loop header.declaration)] else [])
    else tree.attempt header.removals := by
  have hchanges : header.changes = header.removals ++
      (fun tree => .ok (tree.addFlags header.declaration .recovered)) ::
        if header.written = [] then [(·.removeChild loop header.declaration)] else [] := by
    unfold changes edits removals
    split <;> simp [Function.comp_def, TreeEdit.apply]
  rw [hchanges, attempt_append]
  rfl

/-- A declaration that may not be changed keeps the first of its missing fragments. -/
theorem attempt_changes_of_isProtected (hprotected : header.node.isProtected = true)
    (hmissing : header.missing ≠ []) : tree.attempt header.changes = (tree, false) := by
  have hremovals : tree.attempt header.removals = (tree, false) := by
    obtain ⟨first, rest, hfirst⟩ := List.exists_cons_of_ne_nil hmissing
    simp only [removals, hfirst, List.map_cons, attempt,
      removeChild_of_isProtected header.node_eq hprotected]
  rw [header.attempt_changes, hremovals]
  rfl

/-- Only the type is left of a declaration whose names are all missing. -/
theorem length_children_removals (hwf : tree.WellFormed)
    (hdone : (tree.attempt header.removals).2 = true) :
    ((tree.attempt header.removals).1.children header.declaration).length = 1 ↔
      header.written = [] := by
  have hlength := length_children_attempt_removeChild hwf hdone
  rw [header.children_eq, List.length_cons] at hlength
  have hparts : header.fragments.length = header.missing.length + header.written.length := by
    simpa [missing, written] using List.length_eq_length_filter_add _
  rw [← List.length_eq_zero_iff, removals]
  omega

/-- A loop with such a header is repaired by its changes. -/
theorem dropForDeclaration_eq (hwf : tree.WellFormed) : tree.dropForDeclaration loop =
    some (if header.missing = [] then tree else (tree.attempt header.changes).1) := by
  simp only [dropForDeclaration, header.statement_eq, Option.bind_eq_bind, Option.bind_some,
    header.statement_kind, NodeKind.loop, header.node_eq, header.node_kind, NodeKind.declaration,
    header.filterM_eq hwf, List.isEmpty_iff]
  split
  · rfl
  · rw [header.attempt_changes]
    change (if ¬ (tree.attempt header.removals).2 = true then _ else _) = _
    by_cases hdone : (tree.attempt header.removals).2 = true
    · have hone := header.length_children_removals hwf hdone
      rw [← children_congr (congrFun (skeleton_addFlags _ header.declaration .recovered) _)] at hone
      simp only [hdone, not_true, if_false, if_true]
      by_cases hwritten : header.written = []
      · rw [if_pos hwritten]
        exact if_pos (hone.mpr hwritten)
      · rw [if_neg hwritten]
        exact if_neg (mt hone.mp hwritten)
    · rw [if_pos hdone, if_neg hdone]
      rfl

/-- A declaration that may be changed loses its missing fragments and is flagged. -/
theorem losesFragments (hwf : tree.WellFormed) (hfree : header.node.isProtected = false) :
    (tree.attempt header.removals).2 = true ∧ header.LosesFragments
      ((tree.attempt header.removals).1.addFlags header.declaration .recovered) true := by
  obtain ⟨htype, hnodup⟩ := header.nodup hwf
  have hmissing : ∀ fragment ∈ header.missing, fragment ∈ header.fragments ∧
      fragment < tree.size ∧ fragment ≠ header.declaration := by
    intro fragment hmem
    have hmem := List.mem_of_mem_filter hmem
    have hparent := header.parent?_fragment hwf hmem
    exact ⟨hmem, lt_size_of_parent? hparent, hwf.ne_of_parent? hparent⟩
  have hnodup' : header.missing.Nodup := hnodup.filter _
  obtain ⟨changed, hattempt, hsize, hroot, heach⟩ := attempt_removeChild header.node_eq
    header.node_kind hfree htype hnodup hnodup' hmissing
  rw [← header.written_eq] at heach
  have hparent := header.parent?_declaration hwf
  have hne : header.declaration ≠ loop := hwf.ne_of_parent? hparent
  have hloop : loop ∉ header.missing := fun hmem =>
    Below.not_parent hwf (header.parent?_fragment hwf (hmissing loop hmem).1) (.step hparent .refl)
  have hself : header.declaration ∉ header.missing := fun hmem => (hmissing _ hmem).2.2 rfl
  have hother {other : NodeId} (ho : other ≠ header.declaration) :
      (changed.addFlags header.declaration .recovered).node? other = (tree.node? other).map
        fun node =>
          { node with parent := if other ∈ header.missing then none else node.parent } := by
    rw [node?_addFlags_of_ne ho.symm, heach]
    simp [ho]
  rw [removals, hattempt]
  refine ⟨rfl, ?_, ?_, ?_, ?_, by simpa [addFlags] using hsize, hroot⟩
  · rw [hother hne.symm, header.statement_eq]
    simp [hloop, ← header.statement_kind]
  · rw [addFlags, node?_modify, if_pos rfl, heach, header.node_eq]
    simpa [hself, Tree.parent?, header.node_eq] using hparent
  · intro fragment hmem
    rw [hother (hmissing fragment hmem).2.2]
    simp [hmem]
  · intro other _ ho hmem
    rw [hother ho]
    simp [hmem]

variable {header}

/-- A loop that may be changed gives up the declaration as well. -/
theorem LosesFragments.removeChild (h : header.LosesFragments tree' true) (hwf : tree.WellFormed)
    (hfree : header.statement.isProtected = false) : ∃ changed,
      tree'.removeChild loop header.declaration = .ok changed ∧
        header.LosesFragments changed false := by
  have hne : header.declaration ≠ loop := hwf.ne_of_parent? (header.parent?_declaration hwf)
  have hparent {fragment : NodeId} (hmem : fragment ∈ header.missing) :
      tree.parent? fragment = some header.declaration :=
    header.parent?_fragment hwf (List.mem_of_mem_filter hmem)
  refine ⟨_, removeChild_eq_ok h.loop_eq hfree h.declaration_eq (NodeKind.take_initializer _ _ _ _),
    ?_, ?_, ?_, ?_, by simpa using h.size_eq, h.root_eq⟩
  · rw [node?_cut, h.loop_eq]
    simp [hne.symm]
  · rw [node?_cut, h.declaration_eq]
    simp [hne]
  · intro fragment hmem
    have hloop : fragment ≠ loop := by
      rintro rfl
      exact Below.not_parent hwf (hparent hmem) (.step (header.parent?_declaration hwf) .refl)
    have hself : fragment ≠ header.declaration := hwf.ne_of_parent? (hparent hmem)
    rw [node?_cut, h.fragment_eq fragment hmem]
    simp [hloop, hself, Function.comp_def]
  · intro other hloop hself hmem
    rw [node?_cut, h.other_eq other hloop hself hmem]
    simp [hloop, hself]

end LoopHeader

theorem dropForDeclaration_of_isEmpty (hwf : tree.WellFormed) (hloop : loop < tree.size)
    (h : IsEmpty (tree.LoopHeader loop)) : tree.dropForDeclaration loop = some tree := by
  obtain ⟨statement, hstatement⟩ := node?_of_lt_size hloop
  simp only [dropForDeclaration, hstatement, Option.bind_eq_bind, Option.bind_some]
  split
  · next declaration rest hkind =>
    have hmem : declaration ∈ statement.kind.children := by
      rw [hkind]
      exact List.mem_cons_self
    obtain ⟨node, hnode⟩ := exists_child_node hwf hstatement hmem
    simp only [hnode, Option.bind_some]
    split
    · next type fragments _ hkind' =>
      obtain ⟨condition, updaters, body, ⟨⟩⟩ := rest
      exact h.elim ⟨statement, declaration, condition, updaters, body, node, type, fragments,
        hstatement, hkind, hnode, hkind'⟩
    · rfl
  · rfl

/-- Where a loop has such a header with missing names, the changes that drop them are made in order.
A declaration that may not be changed refuses the first of them, and the tree stays as it is.
Otherwise the missing names go, and the declaration with the last of them, unless the loop may not
be changed: then the declaration stays where it is, although nothing is left of it. -/
theorem dropForDeclaration_whole (hwf : tree.WellFormed) (hloop : loop < tree.size) :
    ((∀ header : tree.LoopHeader loop, header.missing = []) →
      tree.dropForDeclaration loop = some tree) ∧
    ∀ header : tree.LoopHeader loop, header.missing ≠ [] →
      tree.dropForDeclaration loop = some (tree.attempt header.changes).1 ∧
      if header.node.isProtected then tree.attempt header.changes = (tree, false)
      else if header.statement.isProtected ∧ header.written = [] then
        (tree.attempt header.changes).2 = false ∧
          header.LosesFragments (tree.attempt header.changes).1 true
      else (tree.attempt header.changes).2 = true ∧
        header.LosesFragments (tree.attempt header.changes).1 (header.written ≠ []) := by
  refine ⟨fun hnone => ?_, fun header hmissing => ?_⟩
  · rcases isEmpty_or_nonempty (tree.LoopHeader loop) with hempty | ⟨⟨header⟩⟩
    · exact dropForDeclaration_of_isEmpty hwf hloop hempty
    · rw [header.dropForDeclaration_eq hwf, if_pos (hnone header)]
  · refine ⟨by rw [header.dropForDeclaration_eq hwf, if_neg hmissing], ?_⟩
    split
    · next hprotected => exact header.attempt_changes_of_isProtected hprotected hmissing
    · next hfree =>
      obtain ⟨hdone, hloses⟩ := header.losesFragments hwf (Bool.not_eq_true _ ▸ hfree)
      rw [header.attempt_changes, if_pos hdone]
      by_cases hwritten : header.written = []
      · rw [if_pos hwritten]
        by_cases hprotected : header.statement.isProtected = true
        · rw [if_pos ⟨hprotected, hwritten⟩]
          simp only [attempt, removeChild_of_isProtected hloses.loop_eq hprotected]
          exact ⟨trivial, hloses⟩
        · obtain ⟨changed, hremove, hloses'⟩ :=
            hloses.removeChild hwf (Bool.not_eq_true _ ▸ hprotected)
          rw [if_neg fun h => hprotected h.1]
          simp only [attempt, hremove]
          exact ⟨trivial, by simpa [hwritten] using hloses'⟩
      · rw [if_neg hwritten, if_neg fun h => hwritten h.2]
        exact ⟨rfl, by simpa [attempt, hwritten] using hloses⟩

/-- The header of a loop declares a missing name only. The flags are those of the loop. -/
def namelessLoop (flags : NodeFlags) : Tree where
  nodes := #[⟨.simpleName "x", ⟨5, 6⟩, .parsed, some 1⟩,
    ⟨⟨.simpleType, (0, ())⟩, ⟨5, 6⟩, .parsed, some 4⟩,
    ⟨.simpleName "$missing$", ⟨7, 7⟩, .parsed, some 3⟩,
    ⟨⟨.variableDeclarationFragment, (2, none, ())⟩, ⟨7, 7⟩, .parsed, some 4⟩,
    ⟨.declaration 1 [3], ⟨5, 7⟩, .parsed, some 6⟩,
    ⟨⟨.emptyStatement, ()⟩, ⟨12, 13⟩, .parsed, some 6⟩,
    ⟨.loop [4] none [] 5, ⟨0, 13⟩, flags, none⟩]
  root := some 6

def namelessHeader (flags : NodeFlags) : (namelessLoop flags).LoopHeader 6 :=
  ⟨_, 4, none, [], 5, _, 1, [3], rfl, rfl, rfl, rfl⟩

theorem dropForDeclaration_whole_namelessLoop : (namelessLoop .parsed).WellFormed ∧
    (namelessHeader .parsed).missing = [3] ∧ ∃ tree',
      (namelessLoop .parsed).dropForDeclaration 6 = some tree' ∧
        (namelessHeader .parsed).LosesFragments tree' false := by
  have hlink : link (namelessLoop .parsed).nodes (namelessLoop .parsed).root =
      .ok (namelessLoop .parsed) := by decide +kernel
  have hwf := wellFormed_of_link hlink
  have hmissing : (namelessHeader .parsed).missing = [3] := by decide
  have hwritten : (namelessHeader .parsed).written = [] := by decide
  obtain ⟨-, hwhole⟩ := dropForDeclaration_whole hwf (by decide : 6 < (namelessLoop .parsed).size)
  obtain ⟨hdrop, hcases⟩ := hwhole (namelessHeader .parsed) (by simp [hmissing])
  rw [if_neg (by decide), if_neg (by decide)] at hcases
  refine ⟨hwf, hmissing, _, hdrop, ?_⟩
  simpa [hwritten] using hcases.2

/-- The loop may not be changed, and the declaration is in its header still, without its names. -/
theorem emptied_namelessLoop :
    (namelessLoop (.union .parsed .protect)).WellFormed ∧ ∃ tree',
      (namelessLoop (.union .parsed .protect)).dropForDeclaration 6 = some tree' ∧
      ((namelessLoop (.union .parsed .protect)).attempt
        (namelessHeader (.union .parsed .protect)).changes).2 = false ∧
      tree' ≠ namelessLoop (.union .parsed .protect) ∧
      tree'.children 4 = [1] ∧ 4 ∈ tree'.children 6 := by
  have hlink : link (namelessLoop (.union .parsed .protect)).nodes (some 6) =
      .ok (namelessLoop (.union .parsed .protect)) := by decide +kernel
  refine ⟨wellFormed_of_link hlink, _, rfl, ?_, ?_, ?_, ?_⟩ <;> decide +kernel

end Tree
end SyntaxRecovery
