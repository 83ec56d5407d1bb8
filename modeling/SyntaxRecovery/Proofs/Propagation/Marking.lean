import SyntaxRecovery.Proofs.Propagation.Idioms

/-! Flags that change nothing. Edits of a tree do the same whatever nodes are flagged, and so do
repairs where neither a statement nor a name is among the nodes flagged before. -/
namespace SyntaxRecovery

namespace Node
variable (marked : Finset NodeId) (id : NodeId) (node : Node)

/-- The node as it is in the tree with the nodes of the set flagged. -/
def markedIn : Node :=
  if id ∈ marked then { node with flags := node.flags.union .recovered } else node

@[simp] theorem kind_markedIn : (node.markedIn marked id).kind = node.kind := by
  unfold markedIn
  split <;> rfl

@[simp] theorem span_markedIn : (node.markedIn marked id).span = node.span := by
  unfold markedIn
  split <;> rfl

@[simp] theorem parent_markedIn : (node.markedIn marked id).parent = node.parent := by
  unfold markedIn
  split <;> rfl

@[simp] theorem shape_markedIn : (node.markedIn marked id).shape = node.shape := by
  unfold markedIn
  split <;> rfl

@[simp] theorem isMissingName_markedIn :
    (node.markedIn marked id).isMissingName = node.isMissingName := by
  unfold markedIn
  split <;> rfl

@[simp] theorem isProtected_markedIn :
    (node.markedIn marked id).isProtected = node.isProtected := by
  unfold markedIn
  split
  · exact isProtected_union node.flags
  · rfl

end Node

theorem NodeFlags.union_right_comm (a b c : NodeFlags) :
    (a.union b).union c = (a.union c).union b := by
  simp only [union, NodeFlags.mk.injEq]
  rw [UInt8.or_assoc, UInt8.or_comm b.bits, ← UInt8.or_assoc]

namespace Tree
variable {tree : Tree} {marked : Finset NodeId} {id parent child old new : NodeId}

theorem node?_markAll_eq (tree : Tree) (marked : Finset NodeId) (id : NodeId) :
    (tree.markAll marked).node? id = (tree.node? id).map (Node.markedIn marked id) :=
  node?_markAll tree marked id

@[simp] theorem children_markAll : (tree.markAll marked).children id = tree.children id :=
  children_congr (congrFun skeleton_markAll id)

/-- A change of one node that keeps its flags, or adds to them, may come before or after the others
are flagged. -/
theorem modify_markAll {f : Node → Node} (hf : ∀ node,
    f (node.markedIn marked id) = (f node).markedIn marked id) :
    (tree.markAll marked).modify id f = (tree.modify id f).markAll marked := by
  refine eq_of_node? rfl fun other => ?_
  rw [node?_modify, node?_markAll_eq, node?_markAll_eq, node?_modify]
  by_cases hid : id = other
  · subst hid
    rw [if_pos rfl, if_pos rfl, Option.map_map, Option.map_map]
    exact congrArg (Option.map · _) (funext hf)
  · rw [if_neg hid, if_neg hid]

theorem setKind_markAll (kind : NodeKind) :
    (tree.markAll marked).setKind id kind = (tree.setKind id kind).markAll marked := by
  apply modify_markAll
  intro node
  unfold Node.markedIn
  split <;> rfl

theorem setParent_markAll (link : Option NodeId) :
    (tree.markAll marked).setParent id link = (tree.setParent id link).markAll marked := by
  apply modify_markAll
  intro node
  unfold Node.markedIn
  split <;> rfl

theorem addFlags_markAll_comm (flags : NodeFlags) :
    (tree.markAll marked).addFlags id flags = (tree.addFlags id flags).markAll marked := by
  apply modify_markAll
  intro node
  unfold Node.markedIn
  split
  · simp only [NodeFlags.union_right_comm]
  · rfl

/-- A node that comes anew is none of those flagged before. -/
theorem placeholder_markAll (hmarked : ∀ id ∈ marked, id < tree.size) (offset : Nat) :
    (tree.markAll marked).placeholder offset =
      (tree.size, (tree.placeholder offset).2.markAll marked) := by
  refine Prod.ext size_markAll (eq_of_node? rfl fun other => ?_)
  simp only [placeholder]
  rw [node?_push, node?_markAll_eq, node?_markAll_eq, node?_push, size_markAll]
  by_cases ho : other = tree.size
  · have hnot : other ∉ marked := fun hmem => Nat.ne_of_lt (hmarked other hmem) ho
    rw [if_pos ho, if_pos ho, Option.map_some, Node.markedIn, if_neg hnot]
  · rw [if_neg ho, if_neg ho]

theorem find_markAll :
    (tree.markAll marked).find id = (tree.find id).map (Node.markedIn marked id) := by
  unfold find
  rw [node?_markAll_eq]
  cases tree.node? id <;> rfl

theorem findUnprotected_markAll : (tree.markAll marked).findUnprotected id =
    (tree.findUnprotected id).map (Node.markedIn marked id) := by
  unfold findUnprotected
  rw [find_markAll]
  cases tree.find id with
  | error refusal => rfl
  | ok node =>
    simp only [Except.map, bind, Except.bind, Node.isProtected_markedIn]
    split <;> rfl

theorem findDetached_markAll : (tree.markAll marked).findDetached id =
    (tree.findDetached id).map (Node.markedIn marked id) := by
  unfold findDetached
  rw [find_markAll]
  cases tree.find id with
  | error refusal => rfl
  | ok node =>
    simp only [Except.map, bind, Except.bind, Node.parent_markedIn]
    cases node.parent <;> rfl

/-- The edit does the same whatever nodes of the tree are flagged. -/
def Ignores (marked : Finset NodeId) (edit : Tree → Except TreeError Tree) : Prop :=
  ∀ tree : Tree, (∀ id ∈ marked, id < tree.size) →
    edit (tree.markAll marked) = (edit tree).map (·.markAll marked)

theorem ignores_removeChild (marked : Finset NodeId) (parent child : NodeId) :
    Ignores marked (·.removeChild parent child) := by
  intro tree _
  simp only [removeChild, find_markAll, findUnprotected_markAll]
  cases tree.findUnprotected parent with
  | error refusal => rfl
  | ok holder =>
    cases tree.find child with
    | error refusal => rfl
    | ok node =>
      simp only [Except.map, bind, Except.bind, Node.kind_markedIn]
      cases holder.kind.take child with
      | absent => rfl
      | mandatory => rfl
      | taken kind =>
        simp only [setKind_markAll, setParent_markAll]
        rfl

theorem ignores_replaceChild (marked : Finset NodeId) (parent old new : NodeId) :
    Ignores marked (·.replaceChild parent old new) := by
  intro tree _
  simp only [replaceChild, find_markAll, findUnprotected_markAll, findDetached_markAll]
  cases tree.findUnprotected parent with
  | error refusal => rfl
  | ok holder =>
    cases tree.findDetached new with
    | error refusal => rfl
    | ok node =>
      cases tree.find old with
      | error refusal => rfl
      | ok other =>
        have hcycle : (tree.markAll marked).isAncestorOrSelf new parent =
            tree.isAncestorOrSelf new parent := by
          simp only [isAncestorOrSelf, ancestors_markAll]
        simp only [Except.map, bind, Except.bind, Node.kind_markedIn, hcycle]
        by_cases hup : tree.isAncestorOrSelf new parent = true
        · rw [if_pos hup, if_pos hup]
        · rw [if_neg hup, if_neg hup]
          cases holder.kind.swap? old new with
          | none => rfl
          | some kind =>
            simp only [setKind_markAll, setParent_markAll]
            rfl

theorem ignores_detach (marked : Finset NodeId) (id : NodeId) : Ignores marked (·.detach id) := by
  intro tree hmarked
  simp only [detach, find_markAll]
  cases tree.find id with
  | error refusal => rfl
  | ok node =>
    simp only [Except.map, bind, Except.bind, Node.parent_markedIn, Node.span_markedIn]
    cases node.parent with
    | none => rfl
    | some parent =>
      simp only [findUnprotected_markAll]
      cases tree.findUnprotected parent with
      | error refusal => rfl
      | ok holder =>
        simp only [Except.map, Node.kind_markedIn, placeholder_markAll hmarked]
        cases holder.kind.take id <;> simp only [setKind_markAll, setParent_markAll] <;> rfl

/-- Edits that only add nodes leave those flagged before in the tree. -/
def Grows (edit : Tree → Except TreeError Tree) : Prop :=
  ∀ {tree tree' : Tree}, edit tree = .ok tree' → tree.size ≤ tree'.size

theorem grows_removeChild (parent child : NodeId) : Grows (·.removeChild parent child) := by
  intro tree tree' h
  obtain ⟨holder, rest, -, -, -, rfl⟩ := removeChild_cases h
  exact Nat.le_of_eq (by simp)

theorem grows_replaceChild (parent old new : NodeId) : Grows (·.replaceChild parent old new) := by
  intro tree tree' h
  simp only [replaceChild, bind_eq_ok_iff] at h
  obtain ⟨holder, -, node, -, other, -, h⟩ := h
  by_cases hup : tree.isAncestorOrSelf new parent = true
  · rw [if_pos hup] at h
    cases h
  · rw [if_neg hup] at h
    split at h
    · cases h
    · cases h
      exact Nat.le_of_eq (by simp)

theorem grows_detach (id : NodeId) : Grows (·.detach id) := by
  intro tree tree' h
  simp only [detach, bind_eq_ok_iff] at h
  obtain ⟨node, -, h⟩ := h
  split at h
  · cases h
    exact Nat.le_refl _
  · obtain ⟨holder, -, h⟩ := bind_eq_ok_iff.mp h
    cases h
    rw [size_setParent]
    split
    · exact Nat.le_refl _
    · exact Nat.le_of_eq (by simp)
    · simp [placeholder]

theorem attempt_markAll {edits : List (Tree → Except TreeError Tree)}
    (hedits : ∀ edit ∈ edits, Ignores marked edit ∧ Grows edit)
    (hmarked : ∀ id ∈ marked, id < tree.size) : (tree.markAll marked).attempt edits =
      ((tree.attempt edits).1.markAll marked, (tree.attempt edits).2) ∧
        tree.size ≤ (tree.attempt edits).1.size := by
  induction edits generalizing tree with
  | nil => exact ⟨rfl, Nat.le_refl _⟩
  | cons edit edits ih =>
    obtain ⟨⟨hignores, hgrows⟩, hedits⟩ := List.forall_mem_cons.mp hedits
    cases hedit : edit tree with
    | error refusal =>
      simp only [attempt, hignores tree hmarked, hedit, Except.map, Nat.le_refl, and_self]
    | ok next =>
      have hsize := hgrows hedit
      have hmarked' : ∀ id ∈ marked, id < next.size := fun id hid =>
        Nat.lt_of_lt_of_le (hmarked id hid) hsize
      obtain ⟨hsame, hsize'⟩ := ih hedits hmarked'
      simp only [attempt, hignores tree hmarked, hedit, Except.map]
      exact ⟨hsame, Nat.le_trans hsize hsize'⟩

/-- The set holds units of the outline only. -/
def HoldsUnits (tree : Tree) (marked : Finset NodeId) : Prop :=
  ∀ id ∈ marked, ∃ node, tree.node? id = some node ∧ node.shape.isOutlineUnit = true

namespace HoldsUnits
variable {tree' : Tree} {node : Node}

theorem lt_size (h : tree.HoldsUnits marked) : ∀ id ∈ marked, id < tree.size := by
  intro id hid
  obtain ⟨node, hnode, -⟩ := h id hid
  exact lt_size_of_node? hnode

theorem keeps (h : tree.HoldsUnits marked) (hkeeps : tree.Keeps tree') :
    tree'.HoldsUnits marked := by
  intro id hid
  obtain ⟨node, hnode, hunit⟩ := h id hid
  obtain ⟨other, hother, hres⟩ := hkeeps.resembles id node hnode
  exact ⟨other, hother, hres.shape_eq ▸ hunit⟩

theorem insert (h : tree.HoldsUnits marked) (hnode : tree.node? id = some node)
    (hshape : node.shape.isOutlineUnit = true) : tree.HoldsUnits (insert id marked) := by
  intro other ho
  rcases Finset.mem_insert.mp ho with rfl | ho
  · exact ⟨node, hnode, hshape⟩
  · exact h other ho

/-- Other nodes stay as they are. -/
theorem markedIn_eq (h : tree.HoldsUnits marked) (hnode : tree.node? id = some node)
    (hshape : node.shape.isOutlineUnit = false) : node.markedIn marked id = node := by
  have hnot : id ∉ marked := by
    intro hmem
    obtain ⟨other, hother, hunit⟩ := h id hmem
    obtain rfl := Option.some.inj (hnode.symm.trans hother)
    rw [hshape] at hunit
    cases hunit
  exact if_neg hnot

end HoldsUnits

theorem collapseAssignment_markAll (h : tree.HoldsUnits marked) :
    (tree.markAll marked).collapseAssignment id =
      (tree.collapseAssignment id).map (·.markAll marked) := by
  have hedits (expression left right : NodeId) : ∀ edit ∈ [(Tree.detach · left),
      (Tree.replaceChild · id expression left), (Tree.detach · right)],
        Ignores marked edit ∧ Grows edit := by
    simp only [List.forall_mem_cons]
    exact ⟨⟨ignores_detach _ _, grows_detach _⟩,
      ⟨ignores_replaceChild _ _ _ _, grows_replaceChild _ _ _⟩,
      ⟨ignores_detach _ _, grows_detach _⟩, fun _ he => nomatch he⟩
  cases hnode : tree.node? id with
  | none => simp [collapseAssignment, node?_markAll_eq, hnode]
  | some statement =>
    simp only [collapseAssignment, node?_markAll_eq, hnode, Option.map_some, Option.bind_eq_bind,
      Option.bind_some, Node.kind_markedIn]
    split
    · next expression _ hkind =>
      have hshape : statement.shape = .expressionStatement := congrArg NodeKind.shape hkind
      rw [h.markedIn_eq hnode (by rw [hshape]; rfl)]
      cases hinner : tree.node? expression with
      | none => rfl
      | some inner =>
        simp only [Option.map_some, Option.bind_some, Node.kind_markedIn, Node.isProtected_markedIn]
        split
        · next left operator right _ hkind' =>
          cases hright : tree.node? right with
          | none => rfl
          | some value =>
            simp only [Option.map_some, Option.bind_some, Node.isMissingName_markedIn,
              (attempt_markAll (hedits expression left right) h.lt_size).1]
            split
            · simp only [addFlags_markAll_comm]
              split <;> rfl
            · rfl
        · rfl
    · rfl

theorem declaresMissing_markAll (tree : Tree) (marked : Finset NodeId) :
    (tree.markAll marked).declaresMissing = tree.declaresMissing := by
  funext fragment
  unfold declaresMissing
  rw [node?_markAll_eq]
  cases tree.node? fragment with
  | none => rfl
  | some node =>
    simp only [Option.map_some, Option.bind_eq_bind, Option.bind_some, Node.kind_markedIn]
    split
    · next name _ _ =>
      rw [node?_markAll_eq]
      cases tree.node? name with
      | none => rfl
      | some value => simp only [Option.map_some, Option.bind_some, Node.isMissingName_markedIn]
    · rfl

theorem dropForDeclaration_markAll (hmarked : ∀ id ∈ marked, id < tree.size) :
    (tree.markAll marked).dropForDeclaration id =
      (tree.dropForDeclaration id).map (·.markAll marked) := by
  have hedits (declaration : NodeId) (missing : List NodeId) :
      ∀ edit ∈ missing.map fun fragment tree => Tree.removeChild tree declaration fragment,
        Ignores marked edit ∧ Grows edit := by
    intro edit he
    obtain ⟨fragment, -, rfl⟩ := List.mem_map.mp he
    exact ⟨ignores_removeChild _ _ _, grows_removeChild _ _⟩
  cases hnode : tree.node? id with
  | none => simp [dropForDeclaration, node?_markAll_eq, hnode]
  | some statement =>
    simp only [dropForDeclaration, node?_markAll_eq, hnode, Option.map_some, Option.bind_eq_bind,
      Option.bind_some, Node.kind_markedIn]
    split
    · next declaration _ hkind =>
      cases hheader : tree.node? declaration with
      | none => rfl
      | some header =>
        simp only [Option.map_some, Option.bind_some, Node.kind_markedIn]
        split
        · next fragments _ hkind' =>
          rw [declaresMissing_markAll]
          cases hmissing : fragments.filterM tree.declaresMissing with
          | none => rfl
          | some missing =>
            obtain ⟨hattempt, hsize⟩ := attempt_markAll (hedits declaration missing) hmarked
            simp only [Option.bind_some, hattempt]
            split
            · rfl
            · split
              · rfl
              · simp only [addFlags_markAll_comm, children_markAll]
                have hlast : ∀ edit ∈ [fun tree => Tree.removeChild tree id declaration],
                    Ignores marked edit ∧ Grows edit := by
                  intro edit he
                  obtain rfl := List.mem_singleton.mp he
                  exact ⟨ignores_removeChild _ _ _, grows_removeChild _ _⟩
                split
                · refine congrArg
                    some (congrArg Prod.fst (attempt_markAll hlast fun id hid => ?_).1)
                  rw [addFlags, size_modify]
                  exact Nat.lt_of_lt_of_le (hmarked id hid) hsize
                · rfl
        · rfl
    · rfl

theorem clearInitializer_markAll {fragment : NodeId} (h : tree.HoldsUnits marked) :
    (tree.markAll marked).clearInitializer fragment =
      (tree.clearInitializer fragment).map (·.markAll marked) := by
  cases hnode : tree.node? fragment with
  | none => simp [clearInitializer, node?_markAll_eq, hnode]
  | some node =>
    simp only [clearInitializer, node?_markAll_eq, hnode, Option.map_some, Option.bind_eq_bind,
      Option.bind_some, Node.kind_markedIn]
    split
    · next initializer _ hkind =>
      cases hvalue : tree.node? initializer with
      | none => rfl
      | some value =>
        have hholds : ((value.markedIn marked initializer).isRecovered = true ∧
            value.isMissingName = true) ↔ value.isRecovered = true ∧
              value.isMissingName = true := by
          apply and_congr_left
          intro hmissing
          have hshape := Node.shape_of_isMissingName hmissing
          rw [h.markedIn_eq hvalue (by rw [hshape]; rfl)]
        have hedits : ∀ edit ∈ [fun tree => Tree.removeChild tree fragment initializer],
            Ignores marked edit ∧ Grows edit := by
          intro edit he
          obtain rfl := List.mem_singleton.mp he
          exact ⟨ignores_removeChild _ _ _, grows_removeChild _ _⟩
        simp only [Option.map_some, Option.bind_some, Node.isMissingName_markedIn, hholds,
          (attempt_markAll hedits h.lt_size).1]
        split
        · simp only [addFlags_markAll_comm]
          split <;> rfl
        · rfl
    · rfl

theorem clearInitializer_keeps {fragment : NodeId} {tree' : Tree}
    (h : tree.clearInitializer fragment = some tree') : tree.Keeps tree' := by
  obtain ⟨node, -, h⟩ := Option.bind_eq_some_iff.mp h
  split at h
  · next initializer _ _ =>
    obtain ⟨value, -, h⟩ := Option.bind_eq_some_iff.mp h
    split at h
    · cases hr : tree.removeChild fragment initializer with
      | error refusal =>
        simp only [attempt, hr] at h
        exact Option.some.inj h ▸ .refl tree
      | ok next =>
        simp only [attempt, hr] at h
        exact Option.some.inj h ▸ (keeps_removeChild hr).trans (keeps_addFlags next fragment)
    · exact Option.some.inj h ▸ .refl tree
  · exact Option.some.inj h ▸ .refl tree

theorem clearInitializers_markAll (h : tree.HoldsUnits marked) :
    (tree.markAll marked).clearInitializers id =
      (tree.clearInitializers id).map (·.markAll marked) := by
  have hfold (fragments : List NodeId) : ∀ {tree : Tree}, tree.HoldsUnits marked →
      fragments.foldlM clearInitializer (tree.markAll marked) =
        (fragments.foldlM clearInitializer tree).map (·.markAll marked) := by
    induction fragments with
    | nil =>
      intro tree _
      rfl
    | cons fragment fragments ih =>
      intro tree h
      rw [List.foldlM_cons, List.foldlM_cons, clearInitializer_markAll h]
      cases hclear : tree.clearInitializer fragment with
      | none => rfl
      | some next => exact ih (h.keeps (clearInitializer_keeps hclear))
  cases hnode : tree.node? id with
  | none => simp [clearInitializers, node?_markAll_eq, hnode]
  | some statement =>
    simp only [clearInitializers, node?_markAll_eq, hnode, Option.map_some, Option.bind_eq_bind,
      Option.bind_some, Node.kind_markedIn]
    split
    · exact hfold _ h
    · rfl

theorem flagTruncated_markAll : (tree.markAll marked).flagTruncated id =
    (tree.flagTruncated id).map (·.markAll marked) := by
  cases hnode : tree.node? id with
  | none => simp [flagTruncated, node?_markAll_eq, hnode]
  | some node =>
    simp only [flagTruncated, node?_markAll_eq, hnode, Option.map_some, Option.bind_eq_bind,
      Option.bind_some, Node.kind_markedIn, Node.span_markedIn]
    split
    · rfl
    · next value _ =>
      cases tree.node? value with
      | none => rfl
      | some inner =>
        simp only [Option.map_some, Option.bind_some, Node.span_markedIn, addFlags_markAll_comm]
        split <;> rfl

/-- A repair is the same whatever units of the outline are flagged. -/
theorem repair_markAll (h : tree.HoldsUnits marked) (shape : NodeShape) (inBody : Bool) :
    (tree.markAll marked).repair id shape inBody =
      (tree.repair id shape inBody).map (·.markAll marked) := by
  unfold repair
  split
  · exact collapseAssignment_markAll h
  · exact dropForDeclaration_markAll h.lt_size
  · exact clearInitializers_markAll h
  · split
    · rfl
    · exact flagTruncated_markAll
  · split
    · rfl
    · exact flagTruncated_markAll
  · rfl

theorem flagRecovered_markAll_comm : (tree.markAll marked).flagRecovered id =
    (tree.flagRecovered id).map (·.markAll marked) := by
  unfold flagRecovered
  rw [node?_markAll_eq, addFlags_markAll_comm]
  cases tree.node? id <;> rfl

/-- What commutes with each step commutes with all of them. -/
theorem foldlM_semiconj {σ α : Type} {f : σ → α → Option σ} {g : σ → σ}
    (h : ∀ s a, f (g s) a = (f s a).map g) (l : List α) (s : σ) :
    l.foldlM f (g s) = (l.foldlM f s).map g := by
  induction l generalizing s with
  | nil => rfl
  | cons a l ih =>
    rw [List.foldlM_cons, List.foldlM_cons, h]
    cases f s a with
    | none => rfl
    | some next => exact ih next

theorem upToOtherEnd_markAll (stop : Nat) (ids : List NodeId) :
    (tree.markAll marked).upToOtherEnd stop ids = tree.upToOtherEnd stop ids := by
  induction ids with
  | nil => rfl
  | cons id ids ih =>
    unfold upToOtherEnd
    rw [node?_markAll_eq, ih]
    cases tree.node? id with
    | none => rfl
    | some node =>
      simp only [Option.map_some, Option.bind_eq_bind, Option.bind_some, Node.span_markedIn]

theorem claimAtEnd_markAll (marked : Finset NodeId) (reached : Tree × List Offer) (id : NodeId) :
    claimAtEnd (reached.1.markAll marked, reached.2) id =
      (claimAtEnd reached id).map fun left => (left.1.markAll marked, left.2) := by
  obtain ⟨tree, offers⟩ := reached
  -- The flags of the nodes around it, whatever has been flagged so far.
  have haround (tree : Tree) (node : Node) (claim : Offer.EndClaim) :
      (if claim.foreign = true then ((tree.markAll marked).upToOtherEnd node.span.stop
          ((tree.markAll marked).ancestors id)).bind fun around =>
            ((id :: around).foldlM flagRecovered (tree.markAll marked)).bind fun tree =>
              some (tree, claim.offers)
        else some (tree.markAll marked, claim.offers)) =
      (if claim.foreign = true then (tree.upToOtherEnd node.span.stop (tree.ancestors id)).bind
          fun around => ((id :: around).foldlM flagRecovered tree).bind fun tree =>
            some (tree, claim.offers)
        else some (tree, claim.offers)).map fun left => (left.1.markAll marked, left.2) := by
    rw [upToOtherEnd_markAll, ancestors_markAll]
    split
    · cases tree.upToOtherEnd node.span.stop (tree.ancestors id) with
      | none => rfl
      | some around =>
        rw [Option.bind_some, Option.bind_some,
          foldlM_semiconj fun tree id => flagRecovered_markAll_comm]
        cases (id :: around).foldlM flagRecovered tree <;> rfl
    · rfl
  simp only [claimAtEnd]
  rw [node?_markAll_eq]
  cases tree.node? id with
  | none => rfl
  | some node =>
    simp only [Option.map_some, Option.bind_eq_bind, Option.bind_some, Node.shape_markedIn,
      Node.span_markedIn]
    split
    · rfl
    · split
      · rw [flagRecovered_markAll_comm]
        cases tree.flagRecovered id with
        | none => rfl
        | some next => exact haround next node _
      · exact haround tree node _

theorem claimInside_markAll (marked : Finset NodeId) (reached : Tree × List Offer) (id : NodeId) :
    claimInside (reached.1.markAll marked, reached.2) id =
      (claimInside reached id).map fun left => (left.1.markAll marked, left.2) := by
  obtain ⟨tree, offers⟩ := reached
  simp only [claimInside]
  rw [node?_markAll_eq]
  cases tree.node? id with
  | none => rfl
  | some node =>
    simp only [Option.map_some, Option.bind_eq_bind, Option.bind_some, Node.span_markedIn]
    split
    · rw [flagRecovered_markAll_comm]
      cases tree.flagRecovered id <;> rfl
    · rfl

end Tree
end SyntaxRecovery
