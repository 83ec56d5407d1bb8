import SyntaxRecovery.Proofs.Tree.Forest

/-! What the changes to a tree do to its slots and to the links to parents. Three kinds of change
keep a tree well-formed: a node leaves its slot, a detached node takes the place of another, and a
new node adopts detached ones. -/
namespace SyntaxRecovery.Tree
variable {tree tree' : Tree} {id parent child old new : NodeId}

section Primitive
variable (tree : Tree) (id other : NodeId)

@[simp] theorem size_setKind (kind : NodeKind) : (tree.setKind id kind).size = tree.size :=
  size_modify _ _ _

@[simp] theorem size_setParent (link : Option NodeId) : (tree.setParent id link).size = tree.size :=
  size_modify _ _ _

@[simp] theorem parent?_setKind (kind : NodeKind) :
    (tree.setKind id kind).parent? other = tree.parent? other := by
  simp only [Tree.parent?, setKind, node?_modify]
  split <;> cases tree.node? other <;> rfl

@[simp] theorem children_setParent (link : Option NodeId) :
    (tree.setParent id link).children other = tree.children other := by
  simp only [children, setParent, node?_modify]
  split <;> cases tree.node? other <;> rfl

@[simp] theorem skeleton_addFlags (flags : NodeFlags) :
    (tree.addFlags id flags).skeleton = tree.skeleton := by
  funext other
  simp only [skeleton, addFlags, node?_modify]
  split <;> cases tree.node? other <;> rfl

@[simp] theorem skeleton_setFlags (flags : NodeFlags) :
    (tree.setFlags id flags).skeleton = tree.skeleton := by
  funext other
  simp only [skeleton, setFlags, node?_modify]
  split <;> cases tree.node? other <;> rfl

variable {tree id other}

theorem children_setKind (hid : id < tree.size) (kind : NodeKind) (other : NodeId) :
    (tree.setKind id kind).children other =
      if other = id then kind.children else tree.children other := by
  obtain ⟨node, hnode⟩ := node?_of_lt_size hid
  simp only [children, setKind, node?_modify]
  by_cases h : other = id
  · subst h
    simp [hnode]
  · simp [h, Ne.symm h]

theorem parent?_setParent (hid : id < tree.size) (link : Option NodeId) (other : NodeId) :
    (tree.setParent id link).parent? other = if other = id then link else tree.parent? other := by
  obtain ⟨node, hnode⟩ := node?_of_lt_size hid
  simp only [Tree.parent?, setParent, node?_modify]
  by_cases h : other = id
  · subst h
    simp [hnode]
  · simp [h, Ne.symm h]

theorem skeleton_setKind_of_ne (kind : NodeKind) (h : other ≠ id) :
    (tree.setKind id kind).skeleton other = tree.skeleton other := by
  simp [skeleton, setKind, node?_modify, Ne.symm h]

theorem skeleton_setParent_of_ne (link : Option NodeId) (h : other ≠ id) :
    (tree.setParent id link).skeleton other = tree.skeleton other := by
  simp [skeleton, setParent, node?_modify, Ne.symm h]

theorem children_push (node : Node) (other : NodeId) : (tree.push node).children other =
    if other = tree.size then node.kind.children else tree.children other := by
  simp only [children, node?_push]
  split <;> rfl

theorem parent?_push (node : Node) (other : NodeId) :
    (tree.push node).parent? other =
      if other = tree.size then node.parent else tree.parent? other := by
  simp only [Tree.parent?, node?_push]
  split <;> rfl

theorem skeleton_push_of_ne (node : Node) (h : other ≠ tree.size) :
    (tree.push node).skeleton other = tree.skeleton other := by
  simp [skeleton, node?_push, h]

@[simp] theorem children_size : tree.children tree.size = [] := by
  simp [children, node?_eq_none_iff.mpr (Nat.le_refl _)]

@[simp] theorem parent?_size : tree.parent? tree.size = none := by
  simp [Tree.parent?, node?_eq_none_iff.mpr (Nat.le_refl _)]

/-- A new placeholder stands alone. -/
@[simp] theorem children_placeholder (offset : Nat) (other : NodeId) :
    (tree.placeholder offset).2.children other = tree.children other := by
  rw [placeholder, children_push]
  split
  · next h =>
    subst h
    rw [children_size]
    rfl
  · rfl

@[simp] theorem parent?_placeholder (offset : Nat) (other : NodeId) :
    (tree.placeholder offset).2.parent? other = tree.parent? other := by
  rw [placeholder, parent?_push]
  split
  · next h =>
    subst h
    rw [parent?_size]
    rfl
  · rfl

end Primitive

/-- `child` leaves its slot of `parent`. -/
structure Unlinks (tree tree' : Tree) (parent child : NodeId) : Prop where
  root_eq : tree'.root = tree.root
  size_eq : tree'.size = tree.size
  attached : tree.parent? child = some parent
  children_eq : ∀ id, tree'.children id =
    if id = parent then (tree.children parent).erase child else tree.children id
  parent?_eq : ∀ id, tree'.parent? id = if id = child then none else tree.parent? id
  skeleton_eq : ∀ id, id ≠ parent → id ≠ child → tree'.skeleton id = tree.skeleton id

/-- The detached node `new` takes the slot of `parent` that holds `old`. -/
structure Exchanges (tree tree' : Tree) (parent old new : NodeId) : Prop where
  root_eq : tree'.root = tree.root
  size_le : tree.size ≤ tree'.size
  attached : tree.parent? old = some parent
  detached : tree.parent? new = none
  apart : tree.isAncestorOrSelf new parent = false
  children_perm : (tree'.children parent).Perm (new :: (tree.children parent).erase old)
  children_eq : ∀ id, id ≠ parent → tree'.children id = tree.children id
  parent?_eq : ∀ id, tree'.parent? id =
    if id = new then some parent else if id = old then none else tree.parent? id
  skeleton_eq : ∀ id < tree.size, id ≠ parent → id ≠ old → id ≠ new →
    tree'.skeleton id = tree.skeleton id

/-- The node `id` comes with the detached nodes `ids` below it. -/
structure Adopts (tree tree' : Tree) (id : NodeId) (ids : List NodeId) : Prop where
  children_id : tree.children id = []
  parent?_id : tree.parent? id = none
  not_mem : id ∉ ids
  nodup : ids.Nodup
  detached : ∀ child ∈ ids, tree.parent? child = none
  children_eq : ∀ other, tree'.children other = if other = id then ids else tree.children other
  parent?_eq : ∀ other, tree'.parent? other = if other ∈ ids then some id else tree.parent? other

namespace WellFormed

theorem unlinks (h : tree.WellFormed) (hu : Unlinks tree tree' parent child) :
    tree'.WellFormed where
  nodup id := by
    rw [hu.children_eq]
    split
    · exact (h.nodup parent).erase child
    · exact h.nodup id
  linked id other := by
    rw [hu.children_eq, hu.parent?_eq]
    by_cases hother : other = child
    · subst hother
      by_cases hid : id = parent
      · simp [hid, (h.nodup parent).mem_erase_iff]
      · have hne : ¬ tree.parent? other = some id := by
          rw [hu.attached]
          exact fun heq => hid (Option.some.inj heq).symm
        simp [hid, h.linked, hne]
    · by_cases hid : id = parent
      · simp [hid, hother, (h.nodup parent).mem_erase_iff, h.linked]
      · simp [hid, hother, h.linked]
  rooted id := by
    have hstep (other : NodeId) : tree'.parent? other = tree.parent? other ∨
        ∃ rest, tree'.Climbs (tree'.parent? other) rest := by
      rw [hu.parent?_eq]
      split
      · exact .inr ⟨[], .finish⟩
      · exact .inl rfl
    rcases hstep id with heq | hrest
    · rw [heq]
      exact (h.climbs_ancestors id).reroute fun other _ => hstep other
    · exact hrest

theorem exchanges (h : tree.WellFormed) (he : Exchanges tree tree' parent old new) :
    tree'.WellFormed where
  nodup id := by
    by_cases hid : id = parent
    · subst hid
      refine he.children_perm.nodup_iff.mpr (List.nodup_cons.mpr ⟨?_, (h.nodup id).erase old⟩)
      intro hmem
      have := (h.linked id new).mp (List.mem_of_mem_erase hmem)
      rw [he.detached] at this
      cases this
    · rw [he.children_eq id hid]
      exact h.nodup id
  linked id other := by
    have hne : old ≠ new := by
      rintro rfl
      cases he.attached.symm.trans he.detached
    rw [he.parent?_eq]
    by_cases hid : id = parent
    · subst hid
      rw [he.children_perm.mem_iff, List.mem_cons, (h.nodup id).mem_erase_iff, h.linked]
      by_cases hnew : other = new
      · simp [hnew]
      · by_cases hold : other = old <;> simp [hnew, hold]
    · rw [he.children_eq id hid, h.linked]
      by_cases hnew : other = new
      · simp [hnew, he.detached, Ne.symm hid]
      · by_cases hold : other = old
        · simp [hold, hne, he.attached, Ne.symm hid]
        · simp [hnew, hold]
  rooted id := by
    have hbelow : ∃ rest, tree'.Climbs (some parent) rest := by
      refine (Climbs.up (h.climbs_ancestors parent)).reroute fun other hmem => ?_
      have hother : other ≠ new := by
        rintro rfl
        have hapart := he.apart
        simp only [isAncestorOrSelf, Bool.or_eq_false_iff, beq_eq_false_iff_ne] at hapart
        rcases List.mem_cons.mp hmem with heq | hmem
        · exact hapart.1 heq
        · simp [hmem] at hapart
      rw [he.parent?_eq, if_neg hother]
      split
      · exact .inr ⟨[], .finish⟩
      · exact .inl rfl
    have hstep (other : NodeId) : tree'.parent? other = tree.parent? other ∨
        ∃ rest, tree'.Climbs (tree'.parent? other) rest := by
      rw [he.parent?_eq]
      split
      · exact .inr hbelow
      · split
        · exact .inr ⟨[], .finish⟩
        · exact .inl rfl
    rcases hstep id with heq | hrest
    · rw [heq]
      exact (h.climbs_ancestors id).reroute fun other _ => hstep other
    · exact hrest

theorem adopts {ids : List NodeId} (h : tree.WellFormed) (ha : Adopts tree tree' id ids) :
    tree'.WellFormed where
  nodup other := by
    rw [ha.children_eq]
    split
    · exact ha.nodup
    · exact h.nodup other
  linked other child := by
    rw [ha.children_eq, ha.parent?_eq]
    by_cases hchild : child ∈ ids
    · by_cases hother : other = id
      · simp [hchild, hother]
      · simp [hchild, hother, Ne.symm hother, h.linked, ha.detached child hchild]
    · by_cases hother : other = id
      · have hnone : ¬ tree.parent? child = some id := by
          rw [← h.linked, ha.children_id]
          exact List.not_mem_nil
        simp [hchild, hother, hnone]
      · simp [hchild, hother, h.linked]
  rooted other := by
    have htop : tree'.Climbs (some id) [id] := by
      refine .up ?_
      rw [ha.parent?_eq, if_neg ha.not_mem, ha.parent?_id]
      exact .finish
    have hstep (other : NodeId) : tree'.parent? other = tree.parent? other ∨
        ∃ rest, tree'.Climbs (tree'.parent? other) rest := by
      rw [ha.parent?_eq]
      split
      · exact .inr ⟨[id], htop⟩
      · exact .inl rfl
    rcases hstep other with heq | hrest
    · rw [heq]
      exact (h.climbs_ancestors other).reroute fun next _ => hstep next
    · exact hrest

end WellFormed

section Calls

theorem bind_eq_ok_iff {α β : Type} {x : Except TreeError α} {f : α → Except TreeError β} {b : β} :
    x >>= f = .ok b ↔ ∃ a, x = .ok a ∧ f a = .ok b := by
  cases x with
  | error e => simp [bind, Except.bind]
  | ok a => simp [bind, Except.bind]

theorem find_eq_ok_iff {node : Node} : tree.find id = .ok node ↔ tree.node? id = some node := by
  unfold find
  split <;> simp_all

theorem findUnprotected_eq_ok_iff {node : Node} : tree.findUnprotected id = .ok node ↔
    tree.node? id = some node ∧ node.isProtected = false := by
  simp only [findUnprotected, bind_eq_ok_iff, find_eq_ok_iff]
  constructor
  · rintro ⟨found, hf, hp⟩
    split at hp
    · cases hp
    · next hp' =>
      cases hp
      exact ⟨hf, by simpa using hp'⟩
  · rintro ⟨hf, hp⟩
    exact ⟨node, hf, by simp [hp]⟩

theorem findDetached_eq_ok_iff {node : Node} : tree.findDetached id = .ok node ↔
    tree.node? id = some node ∧ node.parent = none := by
  simp only [findDetached, bind_eq_ok_iff, find_eq_ok_iff]
  constructor
  · rintro ⟨found, hf, hp⟩
    split at hp
    · cases hp
    · next hp' =>
      cases hp
      exact ⟨hf, hp'⟩
  · rintro ⟨hf, hp⟩
    exact ⟨node, hf, by simp [hp]⟩

/-- Emptying the slot and cutting the link is what takes a child out. -/
theorem unlinks_of_take (h : tree.WellFormed) {holder : Node} {kind : NodeKind}
    (hholder : tree.node? parent = some holder) (ht : holder.kind.take child = .taken kind) :
    Unlinks tree ((tree.setKind parent kind).setParent child none) parent child := by
  have hmem : child ∈ tree.children parent := by
    rw [children_of_node? hholder]
    exact NodeKind.mem_of_take (by simp [ht])
  have hchild := h.child_lt_size hmem
  have hparent := lt_size_of_node? hholder
  refine ⟨rfl, by simp, (h.linked _ _).mp hmem, fun id => ?_, fun id => ?_, fun id hp hc => ?_⟩
  · rw [children_setParent, children_setKind hparent, NodeKind.children_of_take ht,
      children_of_node? hholder]
  · rw [parent?_setParent (by simpa using hchild), parent?_setKind]
  · rw [skeleton_setParent_of_ne _ hc, skeleton_setKind_of_ne _ hp]

theorem removeChild_unlinks (h : tree.WellFormed) (hr : tree.removeChild parent child = .ok tree') :
    Unlinks tree tree' parent child := by
  simp only [removeChild, bind_eq_ok_iff, findUnprotected_eq_ok_iff] at hr
  obtain ⟨holder, ⟨hholder, -⟩, -, -, hr⟩ := hr
  split at hr
  · cases hr
  · cases hr
  · next kind ht =>
    cases hr
    exact unlinks_of_take h hholder ht

theorem replaceChild_exchanges (h : tree.WellFormed)
    (hr : tree.replaceChild parent old new = .ok tree') : Exchanges tree tree' parent old new := by
  simp only [replaceChild, bind_eq_ok_iff, findUnprotected_eq_ok_iff, findDetached_eq_ok_iff] at hr
  obtain ⟨holder, ⟨hholder, -⟩, newNode, ⟨hnew, hdetached⟩, -, -, hr⟩ := hr
  split at hr
  · cases hr
  · next hcycle =>
    split at hr
    · cases hr
    · next kind hs =>
      cases hr
      have hmem : old ∈ tree.children parent := by
        rw [children_of_node? hholder]
        exact NodeKind.mem_of_swap? hs
      have hold := h.child_lt_size hmem
      have hparent := lt_size_of_node? hholder
      have hnew' := lt_size_of_node? hnew
      refine ⟨rfl, by simp, (h.linked _ _).mp hmem, ?_, by simpa using hcycle, ?_, ?_, ?_, ?_⟩
      · simp [Tree.parent?, hnew, hdetached]
      · rw [children_setParent, children_setParent, children_setKind hparent, if_pos rfl,
          children_of_node? hholder]
        exact NodeKind.children_of_swap? hs
      · intro id hid
        rw [children_setParent, children_setParent, children_setKind hparent, if_neg hid]
      · intro id
        rw [parent?_setParent (by simpa using hnew'), parent?_setParent (by simpa using hold),
          parent?_setKind]
      · intro id _ hp ho hn
        rw [skeleton_setParent_of_ne _ hn, skeleton_setParent_of_ne _ ho,
          skeleton_setKind_of_ne _ hp]

/-- A placeholder takes the mandatory slot that a detached node leaves. -/
theorem exchanges_of_placeholder (h : tree.WellFormed) {holder : Node} {kind : NodeKind}
    (offset : Nat)
    (hholder : tree.node? parent = some holder)
    (hs : holder.kind.swap? child tree.size = some kind) :
    Exchanges tree ((((tree.placeholder offset).2.setKind parent kind).setParent tree.size
      (some parent)).setParent child none) parent child tree.size := by
  have hmem : child ∈ tree.children parent := by
    rw [children_of_node? hholder]
    exact NodeKind.mem_of_swap? hs
  have hchild := h.child_lt_size hmem
  have hparent := lt_size_of_node? hholder
  have hsize : (tree.placeholder offset).2.size = tree.size + 1 := size_push _ _
  have hapart : tree.isAncestorOrSelf tree.size parent = false := by
    have hmem : tree.size ∉ tree.ancestors parent := fun hmem =>
      Nat.lt_irrefl _ (h.ancestors_lt_size _ hmem)
    simp [isAncestorOrSelf, hmem, Nat.ne_of_gt hparent]
  have hparent' : parent < (tree.placeholder offset).2.size := by
    rw [hsize]
    exact Nat.lt_succ_of_lt hparent
  have hlinked : tree.size < ((tree.placeholder offset).2.setKind parent kind).size := by
    rw [size_setKind, hsize]
    exact Nat.lt_succ_self _
  have hchild' : child < (((tree.placeholder offset).2.setKind parent kind).setParent tree.size
      (some parent)).size := by
    rw [size_setParent, size_setKind, hsize]
    exact Nat.lt_succ_of_lt hchild
  refine ⟨rfl, by simp [hsize], (h.linked _ _).mp hmem, parent?_size, hapart, ?_, ?_, ?_, ?_⟩
  · rw [children_setParent, children_setParent, children_setKind hparent', if_pos rfl,
      children_of_node? hholder]
    exact NodeKind.children_of_swap? hs
  · intro id hid
    rw [children_setParent, children_setParent, children_setKind hparent', if_neg hid,
      children_placeholder]
  · intro id
    rw [parent?_setParent hchild', parent?_setParent hlinked, parent?_setKind, parent?_placeholder]
    by_cases hid : id = child
    · simp [hid, Nat.ne_of_lt hchild]
    · simp [hid]
  · intro id hid hp hc hn
    rw [skeleton_setParent_of_ne _ hc, skeleton_setParent_of_ne _ hn, skeleton_setKind_of_ne _ hp]
    exact skeleton_push_of_ne _ hn

theorem detach_cases (h : tree.WellFormed) (hd : tree.detach child = .ok tree') :
    tree.parent? child = none ∧ tree' = tree ∨ ∃ parent, tree.parent? child = some parent ∧
      (Unlinks tree tree' parent child ∨ Exchanges tree tree' parent child tree.size) := by
  simp only [detach, bind_eq_ok_iff, find_eq_ok_iff] at hd
  obtain ⟨node, hnode, hd⟩ := hd
  have hparent : tree.parent? child = node.parent := by simp [Tree.parent?, hnode]
  split at hd
  · next hnone =>
    cases hd
    exact .inl ⟨hparent.trans hnone, rfl⟩
  · next parent hsome =>
    rw [hsome] at hparent
    have hmem := (h.linked parent child).mpr hparent
    simp only [bind_eq_ok_iff, findUnprotected_eq_ok_iff] at hd
    obtain ⟨holder, ⟨hholder, -⟩, hd⟩ := hd
    rw [children_of_node? hholder] at hmem
    refine .inr ⟨parent, hparent, ?_⟩
    cases hd
    cases ht : holder.kind.take child with
    | absent => exact absurd hmem (NodeKind.take_eq_absent_iff.mp ht)
    | taken kind => exact .inl (unlinks_of_take h hholder ht)
    | mandatory =>
      cases hs : holder.kind.swap? child tree.size with
      | none => exact absurd hmem (NodeKind.swap?_eq_none_iff.mp hs)
      | some kind =>
        refine .inr ?_
        have hkind : (holder.kind.swap? child tree.size).getD holder.kind = kind := by rw [hs]; rfl
        simpa only [placeholder, hkind] using
          exchanges_of_placeholder h node.span.start hholder hs

theorem checkAdoption_eq_ok {earlier ids : List NodeId}
    (hc : tree.checkAdoption parent earlier ids = .ok ()) :
    (∀ child ∈ ids, child < tree.size ∧ tree.parent? child = none) ∧ ids.Nodup ∧
      ∀ child ∈ ids, child ∉ earlier := by
  induction ids generalizing earlier with
  | nil => simp
  | cons child rest ih =>
    simp only [checkAdoption, bind_eq_ok_iff, findDetached_eq_ok_iff] at hc
    obtain ⟨node, ⟨hnode, hparent⟩, hc⟩ := hc
    split at hc
    · obtain ⟨-, hc, -⟩ := bind_eq_ok_iff.mp hc
      cases hc
    · next hearlier =>
      obtain ⟨hknown, hnodup, hrest⟩ := ih hc
      refine ⟨List.forall_mem_cons.mpr ⟨⟨lt_size_of_node? hnode, ?_⟩, hknown⟩,
        List.nodup_cons.mpr ⟨fun hm => hrest child hm List.mem_cons_self, hnodup⟩,
        List.forall_mem_cons.mpr ⟨hearlier, fun other ho he => hrest other ho (.tail _ he)⟩⟩
      simp [Tree.parent?, hnode, hparent]

/-- Linking some nodes to one parent touches nothing else. -/
theorem parent?_foldl_setParent {ids : List NodeId} (link : Option NodeId)
    (hids : ∀ child ∈ ids, child < tree.size) (other : NodeId) :
    (ids.foldl (fun tree child => tree.setParent child link) tree).parent? other =
      if other ∈ ids then link else tree.parent? other := by
  induction ids generalizing tree with
  | nil => simp
  | cons child rest ih =>
    obtain ⟨hchild, hrest⟩ := List.forall_mem_cons.mp hids
    rw [List.foldl_cons, ih fun other ho => by simpa using hrest other ho,
      parent?_setParent hchild]
    by_cases hother : other = child
    · simp [hother]
    · simp [hother]

@[simp] theorem children_foldl_setParent (ids : List NodeId) (link : Option NodeId)
    (other : NodeId) :
    (ids.foldl (fun tree child => tree.setParent child link) tree).children other =
      tree.children other := by
  induction ids generalizing tree with
  | nil => rfl
  | cons child rest ih => rw [List.foldl_cons, ih, children_setParent]

@[simp] theorem size_foldl_setParent (ids : List NodeId) (link : Option NodeId) :
    (ids.foldl (fun tree child => tree.setParent child link) tree).size = tree.size := by
  induction ids generalizing tree with
  | nil => rfl
  | cons child rest ih => rw [List.foldl_cons, ih, size_setParent]

@[simp] theorem root_foldl_setParent (ids : List NodeId) (link : Option NodeId) :
    (ids.foldl (fun tree child => tree.setParent child link) tree).root = tree.root := by
  induction ids generalizing tree with
  | nil => rfl
  | cons child rest ih => exact ih

theorem alloc_adopts {kind : NodeKind} {span : Span} (ha : tree.alloc kind span = .ok (id, tree')) :
    Adopts tree tree' id kind.children := by
  simp only [alloc, bind_eq_ok_iff] at ha
  obtain ⟨⟨⟩, hcheck, ha⟩ := ha
  cases ha
  obtain ⟨hknown, hnodup, -⟩ := checkAdoption_eq_ok hcheck
  have hfresh : tree.size ∉ kind.children := fun hm => Nat.lt_irrefl _ (hknown _ hm).1
  refine ⟨children_size, parent?_size, hfresh, hnodup, fun child hc => (hknown child hc).2,
    fun other => ?_, fun other => ?_⟩
  · rw [children_push, children_foldl_setParent, size_foldl_setParent]
  · rw [parent?_push, parent?_foldl_setParent _ (fun child hc => (hknown child hc).1),
      size_foldl_setParent]
    by_cases hother : other = tree.size
    · simp [hother, hfresh]
    · simp [hother]

end Calls
end SyntaxRecovery.Tree
