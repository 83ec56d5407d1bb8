import SyntaxRecovery.Proofs.Tree.Acceptance
import SyntaxRecovery.Proofs.Tree.Arena
import SyntaxRecovery.Proofs.Tree.Subtree

/-! The root of a tree and what is above it. A node with a parent cannot be made the root, but the
root can be given a parent later, and a list of nodes may have its root in a slot from the start.
The root has a parent exactly where the last call that had to do with it put it into a slot, and
these are the trees in which the way up from a node below the root leads past the root. -/
namespace SyntaxRecovery

/-- The nodes that the call puts into slots. -/
@[simp] def TreeEdit.adopted : TreeEdit → List NodeId
  | .alloc kind _ => kind.children
  | .replaceChild _ _ new => [new]
  | _ => []

/-- The nodes that the call takes out of their slots. -/
@[simp] def TreeEdit.released : TreeEdit → List NodeId
  | .detach id => [id]
  | .replaceChild _ old _ => [old]
  | .removeChild _ child => [child]
  | _ => []

namespace Tree
variable {tree tree' : Tree} {edit : TreeEdit} {id root : NodeId}

section Step

theorem Unlinks.parent?_eq_none_iff {parent child : NodeId} (hu : Unlinks tree tree' parent child)
    (id : NodeId) : tree'.parent? id = none ↔ tree.parent? id = none ∨ id = child := by
  rw [hu.parent?_eq]
  by_cases hchild : id = child <;> simp [hchild]

theorem Exchanges.parent?_eq_none_iff {parent old new : NodeId}
    (he : Exchanges tree tree' parent old new) (id : NodeId) :
    tree'.parent? id = none ↔ id ≠ new ∧ (tree.parent? id = none ∨ id = old) := by
  rw [he.parent?_eq]
  by_cases hnew : id = new
  · simp [hnew]
  · by_cases hold : id = old <;> simp [hnew, hold]

theorem Adopts.parent?_eq_none_iff {new : NodeId} {ids : List NodeId}
    (ha : Adopts tree tree' new ids)
    (id : NodeId) : tree'.parent? id = none ↔ id ∉ ids ∧ tree.parent? id = none := by
  rw [ha.parent?_eq]
  by_cases hchild : id ∈ ids <;> simp [hchild]

/-- After a call a node has no parent where the call has not put it into a slot, and it had none
before or the call has taken it out of its slot. -/
theorem parent?_apply_eq_none_iff (h : tree.WellFormed) (hid : id < tree.size)
    (ha : edit.apply tree = .ok tree') : tree'.parent? id = none ↔
      id ∉ edit.adopted ∧ (tree.parent? id = none ∨ id ∈ edit.released) := by
  cases edit with
  | alloc kind span =>
    obtain ⟨_, halloc⟩ := alloc_of_apply ha
    simpa using (alloc_adopts halloc).parent?_eq_none_iff id
  | placeholder offset =>
    cases ha
    simp
  | setRoot root =>
    obtain ⟨node, -, hr⟩ := bind_eq_ok_iff.mp ha
    cases hr
    have hsame : Tree.parent? { tree with root := some root } id = tree.parent? id := rfl
    simp [hsame]
  | detach child =>
    rcases detach_cases h ha with ⟨hnone, rfl⟩ | ⟨parent, -, hu | he⟩
    · by_cases hchild : id = child <;> simp [hchild, hnone]
    · simpa using hu.parent?_eq_none_iff id
    · -- The placeholder in the slot is new and not the node.
      have hne : id ≠ tree.size := Nat.ne_of_lt hid
      simpa [hne] using he.parent?_eq_none_iff id
  | replaceChild parent old new =>
    simpa using (replaceChild_exchanges h ha).parent?_eq_none_iff id
  | removeChild parent child =>
    simpa using (removeChild_unlinks h ha).parent?_eq_none_iff id
  | addFlags other flags =>
    cases ha
    have hsame := parent?_congr (congrFun (skeleton_addFlags tree other flags) id)
    simp [hsame]
  | setFlags other flags =>
    cases ha
    have hsame := parent?_congr (congrFun (skeleton_setFlags tree other flags) id)
    simp [hsame]

/-- The root is in a slot of another node. -/
def RootHeld (tree : Tree) : Prop := ∃ root ∈ tree.root, tree.parent? root ≠ none

/-- The call goes through and puts the root into a slot. -/
def TakesRoot (tree : Tree) (edit : TreeEdit) : Prop :=
  (∃ tree', edit.apply tree = .ok tree') ∧ ∃ root ∈ tree.root, root ∈ edit.adopted

/-- The call goes through and takes the root out of its slot, or chooses the root. -/
def FreesRoot (tree : Tree) (edit : TreeEdit) : Prop :=
  (∃ tree', edit.apply tree = .ok tree') ∧
    ((∃ root, edit = .setRoot root) ∨ ∃ root ∈ tree.root, root ∈ edit.released)

theorem not_rootHeld_iff : ¬ tree.RootHeld ↔ ∀ root ∈ tree.root, tree.parent? root = none := by
  simp [RootHeld]

theorem not_rootHeld_of_setRoot (hr : tree.setRoot root = .ok tree') : ¬ tree'.RootHeld := by
  obtain ⟨node, hnode, hr⟩ := bind_eq_ok_iff.mp hr
  obtain ⟨hnode, hparent⟩ := findDetached_eq_ok_iff.mp hnode
  cases hr
  rw [not_rootHeld_iff]
  rintro _ ⟨⟩
  have hsame : Tree.parent? { tree with root := some root } root = tree.parent? root := rfl
  rw [hsame, Tree.parent?, hnode]
  exact hparent

/-- After a call the root is in a slot where the call has put it there, and where it was in one
before and the call has neither taken it out nor chosen the root. -/
theorem rootHeld_edit_iff (h : tree.Reachable) (edit : TreeEdit) : (tree.edit edit).RootHeld ↔
    tree.TakesRoot edit ∨ tree.RootHeld ∧ ¬ tree.FreesRoot edit := by
  cases ha : edit.apply tree with
  | error e =>
    have hsame : tree.edit edit = tree := by simp [Tree.edit, ha]
    simp [hsame, TakesRoot, FreesRoot, ha]
  | ok tree' =>
    have hedit : tree.edit edit = tree' := by simp [Tree.edit, ha]
    rw [hedit]
    by_cases hset : ∃ root, edit = .setRoot root
    · obtain ⟨root, rfl⟩ := hset
      have hfree : ¬ tree'.RootHeld := not_rootHeld_of_setRoot ha
      simp [hfree, TakesRoot, FreesRoot, ha]
    · have hroot : tree'.root = tree.root := by
        rw [root_of_apply h.wellFormed ha]
        cases edit with
        | setRoot root => exact absurd ⟨root, rfl⟩ hset
        | _ => rfl
      cases hsome : tree.root with
      | none => simp [RootHeld, TakesRoot, hroot, hsome]
      | some root =>
        have hparent := parent?_apply_eq_none_iff h.wellFormed (h.root_lt_size root hsome) ha
        simp only [RootHeld, TakesRoot, FreesRoot, hroot, hsome, hset, ha, Option.mem_def,
          Option.some.injEq, exists_eq_left', Except.ok.injEq, exists_eq', true_and, false_or,
          ne_eq, hparent]
        tauto

end Step

section Run

/-- The tree after the calls, one after the other. -/
def editAll (tree : Tree) (edits : List TreeEdit) : Tree := edits.foldl Tree.edit tree

@[simp] theorem editAll_cons (edit : TreeEdit) (edits : List TreeEdit) :
    tree.editAll (edit :: edits) = (tree.edit edit).editAll edits := rfl

theorem Reachable.editAll (h : tree.Reachable) (edits : List TreeEdit) :
    (tree.editAll edits).Reachable := by
  induction edits generalizing tree with
  | nil => exact h
  | cons edit edits ih => exact ih (h.edited edit)

/-- None of the calls takes the root out of its slot or chooses the root. -/
def SparesRoot (tree : Tree) : List TreeEdit → Prop
  | [] => True
  | edit :: edits => ¬ tree.FreesRoot edit ∧ (tree.edit edit).SparesRoot edits

/-- One of the calls puts the root into a slot, and none of those behind it frees the root. -/
def LastTaken (tree : Tree) (edits : List TreeEdit) : Prop :=
  ∃ before edit after, edits = before ++ edit :: after ∧ (tree.editAll before).TakesRoot edit ∧
    ((tree.editAll before).edit edit).SparesRoot after

theorem lastTaken_cons_iff {edits : List TreeEdit} : tree.LastTaken (edit :: edits) ↔
    tree.TakesRoot edit ∧ (tree.edit edit).SparesRoot edits ∨ (tree.edit edit).LastTaken edits := by
  constructor
  · rintro ⟨before, taking, after, hsplit, htakes, hspares⟩
    cases before with
    | nil =>
      obtain ⟨rfl, rfl⟩ := List.cons.inj hsplit
      exact .inl ⟨htakes, hspares⟩
    | cons first before =>
      obtain ⟨rfl, rfl⟩ := List.cons.inj hsplit
      exact .inr ⟨before, taking, after, rfl, htakes, hspares⟩
  · rintro (⟨htakes, hspares⟩ | ⟨before, taking, after, rfl, htakes, hspares⟩)
    · exact ⟨[], edit, edits, rfl, htakes, hspares⟩
    · exact ⟨edit :: before, taking, after, rfl, htakes, hspares⟩

theorem rootHeld_editAll_iff (h : tree.Reachable) (edits : List TreeEdit) :
    (tree.editAll edits).RootHeld ↔
      tree.RootHeld ∧ tree.SparesRoot edits ∨ tree.LastTaken edits := by
  induction edits generalizing tree with
  | nil => simp [editAll, SparesRoot, LastTaken]
  | cons edit edits ih =>
    rw [editAll_cons, ih (h.edited edit), rootHeld_edit_iff h, lastTaken_cons_iff, SparesRoot]
    tauto

/-- A list of nodes makes a tree with its root in a slot where one of the nodes has it there. -/
theorem rootHeld_link_iff {nodes : Array Node} {root : Option NodeId}
    (h : link nodes root = .ok tree) :
    tree.RootHeld ↔ ∃ id ∈ root, ∃ parent, Fills nodes id parent := by
  obtain ⟨hwf, rfl, -, hnodes⟩ := link_eq_ok_iff.mp h
  have hfills (child parent : NodeId) : tree.parent? child = some parent ↔
      Fills nodes child parent := by
    rw [← hwf.linked, fills_iff nodes tree.root,
      @children_of_unlinked tree ⟨nodes, tree.root⟩ parent (hnodes parent)]
  simp only [RootHeld, Option.ne_none_iff_exists', hfills]

end Run

section Outline

theorem mem_outlineFrom_iff (h : tree.WellFormed) {depth level : Nat} {top : NodeId}
    (hfits : tree.Fits depth top) :
    id ∈ (tree.outlineFrom depth level top).map (·.1) ↔ tree.Below top id := by
  induction depth generalizing level top with
  | zero => exact hfits.elim
  | succ depth ih =>
    rw [Below.iff_child h, outlineFrom, List.map_cons, List.map_flatMap, List.mem_cons,
      List.mem_flatMap]
    refine or_congr_right (exists_congr fun child => and_congr_right fun hchild => ?_)
    exact ih (hfits child hchild)

/-- What is met on the way down is the root and all that is below it. -/
theorem Reachable.mem_preorder_iff (h : tree.Reachable) :
    id ∈ tree.preorder ↔ ∃ root ∈ tree.root, tree.Below root id := by
  rw [preorder, outline, List.map_flatMap, List.mem_flatMap]
  simp only [Option.mem_toList]
  refine exists_congr fun root => and_congr_right fun hroot => ?_
  have hfits : tree.Fits tree.size root :=
    h.wellFormed.fits_of_lt_size (h.root_lt_size root hroot) (Nat.le_add_right _ _)
  exact mem_outlineFrom_iff h.wellFormed hfits

/-- What is above a node that is met below the root is met too. -/
def Whole (tree : Tree) : Prop :=
  ∀ id ∈ tree.preorder, ∀ ancestor ∈ tree.ancestors id, ancestor ∈ tree.preorder

theorem Reachable.whole_iff (h : tree.Reachable) : tree.Whole ↔ ¬ tree.RootHeld := by
  constructor
  · rintro hwhole ⟨root, hroot, hheld⟩
    obtain ⟨parent, hparent⟩ := Option.ne_none_iff_exists'.mp hheld
    have habove : parent ∈ tree.ancestors root := by
      rw [h.wellFormed.ancestors_of_parent? hparent]
      exact List.mem_cons_self
    obtain ⟨other, hother, hbelow⟩ :=
      h.mem_preorder_iff.mp
        (hwhole root (h.mem_preorder_iff.mpr ⟨root, hroot, .refl⟩) parent habove)
    obtain rfl := Option.some.inj (hroot.symm.trans hother)
    exact Below.not_parent h.wellFormed hparent hbelow
  · intro hfree id hid ancestor habove
    obtain ⟨root, hroot, hbelow⟩ := h.mem_preorder_iff.mp hid
    have hup : tree.Below ancestor id := (h.wellFormed.mem_ancestors_iff.mp habove).to_reflTransGen
    refine h.mem_preorder_iff.mpr ⟨root, hroot, ?_⟩
    rcases hbelow.total hup with hin | hover
    · exact hin
    · rcases Relation.ReflTransGen.cases_head hover with heq | ⟨parent, hparent, -⟩
      · exact heq ▸ .refl
      · rw [not_rootHeld_iff.mp hfree root hroot] at hparent
        cases hparent

end Outline

/-- The empty tree has no root that could be in a slot, and the root of a linked tree is in one
where a node has it there. After any calls the root is in a slot exactly where it was in one at
first or a call has put it there, and no call since then has taken it out or chosen the root. As
long as it is in none, and only then, what is met on the way down from the root comes with all that
is above it. -/
theorem rootHeld_iff_lastTaken {start : Tree} (h : start.Reachable) (edits : List TreeEdit) :
    (start = {} → ¬ start.RootHeld) ∧
    (∀ nodes root, link nodes root = .ok start →
      (start.RootHeld ↔ ∃ id ∈ root, ∃ parent, Fills nodes id parent)) ∧
    ((start.editAll edits).RootHeld ↔
      start.RootHeld ∧ start.SparesRoot edits ∨ start.LastTaken edits) ∧
    ((start.editAll edits).Whole ↔ ¬ (start.editAll edits).RootHeld) := by
  refine ⟨?_, fun nodes root hlink => rootHeld_link_iff hlink, ?_, ?_⟩
  · rintro rfl ⟨root, hroot, -⟩
    cases hroot
  · exact rootHeld_editAll_iff h edits
  · exact (h.editAll edits).whole_iff

/-- A name becomes the root, and then a statement takes it in. -/
def takeIn : List TreeEdit :=
  [.alloc (.simpleName "x") ⟨0, 1⟩, .setRoot 0, .alloc ⟨.expressionStatement, (0, ())⟩ ⟨0, 2⟩]

def takenIn : Tree := ({} : Tree).editAll takeIn

theorem rootHeld_iff_lastTaken_takeIn :
    ({} : Tree).Reachable ∧ takenIn.RootHeld ∧ ¬ takenIn.Whole := by
  obtain ⟨-, -, hheld, hwhole⟩ := rootHeld_iff_lastTaken .empty takeIn
  have htakes : (({} : Tree).editAll (takeIn.take 2)).TakesRoot
      (.alloc ⟨.expressionStatement, (0, ())⟩ ⟨0, 2⟩) :=
        ⟨⟨takenIn, by decide⟩, 0, by decide, by decide⟩
  have hlast : ({} : Tree).LastTaken takeIn := ⟨takeIn.take 2, _, [], rfl, htakes, trivial⟩
  have htaken : takenIn.RootHeld := hheld.mpr (.inr hlast)
  exact ⟨.empty, htaken, fun h => hwhole.mp h htaken⟩

/-- The root of this tree has a parent, with which it could not be made the root. Its nodes are
linked to the same tree. -/
theorem root_takenIn : takenIn.Reachable ∧ link takenIn.nodes (some 0) = .ok takenIn ∧
    takenIn.root = some 0 ∧ takenIn.parent? 0 = some 1 ∧ takenIn.preorder = [0] ∧
    takenIn.setRoot 0 = .error (.alreadyAttached 0 1) := by
  refine ⟨Reachable.empty.editAll takeIn, ?_, ?_, ?_, ?_, ?_⟩ <;> decide +kernel

end Tree
end SyntaxRecovery
