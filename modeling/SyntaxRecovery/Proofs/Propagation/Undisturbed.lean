import SyntaxRecovery.Proofs.Propagation.Departures
import SyntaxRecovery.Proofs.Tree.Traversals

/-! The walk of propagation, event by event. It rewrites the tree behind itself, and still enters
and leaves the nodes that a walk over the tree as it was would enter and leave. At every event the
depth is the number of open blocks, and the nodes that wait all end where the last node left
does. -/
namespace SyntaxRecovery

namespace Tree
variable {tree now : Tree} {id : NodeId} {node : Node}

def isBlock (tree : Tree) (id : NodeId) : Bool :=
  (tree.node? id).any fun node => node.shape = .block

/-- How many blocks are entered and not yet left after the events. -/
def openBlocks (tree : Tree) (events : List WalkEvent) : Nat :=
  (WalkEvent.unfinished events).countP tree.isBlock

theorem isBlock_eq (hnode : tree.node? id = some node) :
    tree.isBlock id = decide (node.shape = .block) := by
  rw [isBlock, hnode, Option.any_some]

/-- A block stays one, and no other node becomes one. -/
theorem Keeps.isBlock_eq (h : tree.Keeps now) (hnode : now.node? id = some node) :
    tree.isBlock id = decide (node.shape = .block) := by
  by_cases hid : id < tree.size
  · obtain ⟨first, hfirst⟩ := node?_of_lt_size hid
    obtain ⟨other, hother, hres⟩ := h.resembles id first hfirst
    obtain rfl := Option.some.inj (hnode.symm.trans hother)
    rw [Tree.isBlock_eq hfirst, hres.shape_eq]
  · obtain ⟨offset, hnew⟩ := h.fresh id node (Nat.le_of_not_lt hid) hnode
    have hname : node.shape = .simpleName := hnew.shape_eq
    rw [isBlock, node?_eq_none_iff.mpr (Nat.le_of_not_lt hid), Option.any_none, hname]
    rfl

end Tree

namespace Attribution
variable {tree now later : Tree} {log : EditLog} {id root : NodeId} {ids : List NodeId}
    {node : Node}
  {state state' idle : Attribution} {diagnostics : List Diagnostic} {left : List Departure}
  {moments survey : List (Moment Attribution)}

/-- The visitor that goes down as propagation does and keeps count of the blocks, and does nothing
else. -/
def surveyor : Visitor Attribution where
  enter := enter
  leave tree id state := do
    let node ← tree.node? id
    return (tree, if node.shape = .block then { state with depth := state.depth - 1 } else state)

theorem surveyor_leave (hnode : tree.node? id = some node) : surveyor.leave tree id state =
    some (tree, { state with depth := state.depth - if node.shape = .block then 1 else 0 }) := by
  simp only [surveyor, hnode, Option.bind_eq_bind, Option.bind_some]
  split <;> rfl

theorem of_surveyor_leave (hleave : surveyor.leave tree id state = some (later, state')) :
    later = tree := by
  cases hnode : tree.node? id with
  | none => simp [surveyor, hnode] at hleave
  | some node =>
    rw [surveyor_leave hnode] at hleave
    exact (Prod.mk.inj (Option.some.inj hleave)).1.symm

/-- The walk that changes nothing counts the blocks that it leaves off again. -/
theorem surveyed {start finish : Tree × Attribution}
    (h : Tree.Walked surveyor ids start survey finish) (hserves : Serves log start.1 start.2) :
    finish.1 = start.1 ∧ Serves log finish.1 finish.2 ∧ finish.2.depth = start.2.depth := by
  induction h with
  | nil => exact ⟨rfl, hserves, rfl⟩
  | @node id _ now reached _ state _ ready _ _ _ _ _ henter _ hleave _ ihinside ihafter =>
    cases hnode : now.node? id with
    | none => simp [surveyor, enter, hnode] at henter
    | some node =>
      rw [show surveyor.enter now id state = _ from enter_eq hnode hserves] at henter
      obtain ⟨-, rfl⟩ := Prod.mk.inj (Option.some.inj henter)
      obtain ⟨hreached, hready, hdepth⟩ := ihinside (hserves.withDepth _)
      obtain rfl : now = reached := hreached.symm
      rw [surveyor_leave hnode] at hleave
      obtain ⟨rfl, rfl⟩ := Prod.mk.inj (Option.some.inj hleave)
      obtain ⟨hfinish, hend, hdepth'⟩ := ihafter (hready.withDepth _)
      have hopened : ready.depth = state.depth + if node.shape = .block then 1 else 0 := hdepth
      have hclosed : ready.depth - (if node.shape = .block then 1 else 0) = state.depth := by
        rw [hopened, Nat.add_sub_cancel]
      exact ⟨hfinish, hend, hdepth'.trans hclosed⟩

/-- The nodes `ids` are still to be entered: nothing is below two of them, or below one of them and
one that has been left. -/
structure Ahead (tree : Tree) (left : List Departure) (ids : List NodeId) : Prop where
  known : ∀ id ∈ ids, id < tree.size
  apart : tree.Apart ids
  untouched : ∀ first ∈ left, ∀ id ∈ ids, ∀ other, tree.Below id other → ¬ tree.Below first.id other

namespace Ahead

theorem start (hroot : root < tree.size) : Ahead tree [] [root] where
  known := List.forall_mem_singleton.mpr hroot
  apart := List.pairwise_singleton _ _
  untouched _ hf := (List.not_mem_nil hf).elim

theorem not_below (h : Ahead tree left (id :: ids)) : ∀ first ∈ left, ¬ tree.Below first.id id :=
  fun first hf => h.untouched first hf id List.mem_cons_self id .refl

theorem children (h : Ahead tree left (id :: ids)) (hwf : tree.WellFormed) (descend : Bool) :
    Ahead tree left (if descend then tree.children id else []) := by
  obtain ⟨hapart, hparents⟩ := Tree.apart_descended hwf id descend
  refine ⟨fun child hc => Tree.lt_size_of_parent? (hparents child hc), hapart, ?_⟩
  intro first hf child hc other ho
  exact h.untouched first hf id List.mem_cons_self other (ho.of_parent (hparents child hc))

/-- What is left at the first node and below it is not below the others. -/
theorem rest {more : List Departure} (h : Ahead tree left (id :: ids))
    (hmore : ∀ first ∈ more, tree.Below id first.id) : Ahead tree (left ++ more) ids := by
  obtain ⟨hfirst, hapart⟩ := List.pairwise_cons.mp h.apart
  refine ⟨(List.forall_mem_cons.mp h.known).2, hapart, List.forall_mem_append.mpr ⟨?_, ?_⟩⟩
  · exact fun first hf next hn => h.untouched first hf next (.tail id hn)
  · exact fun first hf next hn other ho hdown =>
      hfirst next hn other (hdown.trans (hmore first hf)) ho

end Ahead

namespace Reached
variable {start finish finish' : Tree × Attribution}

/-- A node that is entered is still what it was. -/
theorem of_enter {descend : Bool} (h : Reached log tree left now state)
    (hout : ∀ first ∈ left, ¬ tree.Below first.id id) (hnode : tree.node? id = some node)
    (henter : enter now id state = some (descend, state')) :
    descend = decide (state.depth = 0 ∨ log.Touches node.span) ∧
      state' = { state with depth := state.depth + if node.shape = .block then 1 else 0 } ∧
      now.children id = tree.children id := by
  have hskeleton := h.skeleton_eq id (Tree.lt_size_of_node? hnode) hout
  obtain ⟨node', hnode', hkind, hspan⟩ := Tree.node?_congr_skeleton hskeleton hnode
  have hshape : node'.shape = node.shape := congrArg NodeKind.shape hkind
  rw [enter_eq hnode' h.serves, hspan, hshape] at henter
  obtain ⟨rfl, rfl⟩ := Prod.mk.inj (Option.some.inj henter)
  exact ⟨rfl, rfl, Tree.children_congr hskeleton⟩

/-- So is a node that is left, whatever has been done below it. -/
theorem of_leave {depth : Nat} (h : Reached log tree left now state) (hwf : tree.WellFormed)
    (hout : ∀ first ∈ left, ¬ tree.Below first.id id) (hnode : tree.node? id = some node)
    (hdepth : state.depth = depth + if node.shape = .block then 1 else 0)
    (hleave : leave now id state = some (later, state')) :
    state'.depth = depth ∧ Reached log tree (left ++ [⟨id, depth⟩]) later state' := by
  have hid := Tree.lt_size_of_node? hnode
  obtain ⟨node', hnode', hkind, -⟩ := Tree.node?_congr_skeleton (h.skeleton_eq id hid hout) hnode
  have hshape : node'.shape = node.shape := congrArg NodeKind.shape hkind
  have hstate : { state with depth := depth + if node'.shape = .block then 1 else 0 } = state := by
    rw [hshape, ← hdepth]
  have hdeparture : (⟨id, depth⟩ : Departure).id < tree.size := hid
  obtain ⟨tree', reached, hdepart, hreached⟩ := h.depart hwf hdeparture
  have hdepart' := (depart_eq hnode').symm.trans hdepart
  rw [hstate, hleave] at hdepart'
  obtain ⟨rfl, rfl⟩ := Prod.mk.inj (Option.some.inj hdepart')
  obtain ⟨_, _, _, hleaves, hleave', -⟩ := leave_spec h.wellFormed hnode' h.serves
  rw [hleave] at hleave'
  obtain ⟨rfl, rfl⟩ := Prod.mk.inj (Option.some.inj hleave')
  refine ⟨?_, hreached⟩
  rw [hleaves.depth_eq, hdepth, hshape, Nat.add_sub_cancel]

theorem withDepth (h : Reached log tree left now state) (depth : Nat) :
    Reached log tree left now { state with depth } :=
  ⟨h.wellFormed, h.root_eq, h.size_le, h.skeleton_eq, h.serves.withDepth depth⟩

/-- A walk that repairs what it leaves, and one that leaves it as it is, do the same events: what is
below the nodes still to be entered is not touched. -/
theorem walked (h : Reached log tree left start.1 start.2) (hahead : Ahead tree left ids)
    (hwalked : Tree.Walked visitor ids start moments finish)
    (hwalked' : Tree.Walked surveyor ids (tree, idle) survey finish') (hwf : tree.WellFormed)
    (hserves : Serves log tree idle) (hdepth : idle.depth = start.2.depth) :
    moments.map (·.event) = survey.map (·.event) ∧ finish.2.depth = start.2.depth ∧
      ∃ more, Reached log tree (left ++ more) finish.1 finish.2 ∧
        ∀ last ∈ more, ∃ id ∈ ids, tree.Below id last.id := by
  induction hwalked generalizing left idle survey finish' with
  | nil =>
    cases hwalked'
    refine ⟨rfl, rfl, [], ?_, fun _ hmem => (List.not_mem_nil hmem).elim⟩
    rw [List.append_nil]
    exact h
  | @node id ids now reached gone state entered ready last descend inside after finish henter _
      hleave _ ihinside ihafter =>
    obtain - | @⟨_, _, _, reached', _, _, _, ready', _, descend', _, _, _, henter', hinside',
      hleave', hafter'⟩ := hwalked'
    obtain ⟨node, hnode⟩ := Tree.node?_of_lt_size (hahead.known id List.mem_cons_self)
    obtain ⟨hdescend, rfl, hchildren⟩ := h.of_enter hahead.not_below hnode henter
    rw [show surveyor.enter tree id idle = _ from enter_eq hnode hserves, hdepth,
      ← hdescend] at henter'
    obtain ⟨rfl, rfl⟩ := Prod.mk.inj (Option.some.inj henter')
    -- Both walks go to the same children.
    rw [hchildren] at ihinside
    obtain ⟨hstill, hserves', hready'⟩ := surveyed hinside' (hserves.withDepth _)
    obtain rfl : tree = reached' := hstill.symm
    obtain ⟨hevents, hready, more, hreached, hmore⟩ := ihinside (h.withDepth _)
      (hahead.children hwf descend) hinside' (hserves.withDepth _) rfl
    have hbelow : ∀ first ∈ more, tree.Below id first.id ∧ ¬ tree.Below first.id id := by
      intro first hf
      obtain ⟨child, hc, hb⟩ := hmore first hf
      have hparent := (Tree.apart_descended hwf id descend).2 child hc
      exact ⟨hb.of_parent hparent, fun hup => Tree.Below.not_parent hwf hparent (hup.trans hb)⟩
    have hout : ∀ first ∈ left ++ more, ¬ tree.Below first.id id :=
      List.forall_mem_append.mpr ⟨hahead.not_below, fun first hf => (hbelow first hf).2⟩
    obtain ⟨hgone, hreached⟩ := hreached.of_leave hwf hout hnode hready hleave
    rw [surveyor_leave hnode] at hleave'
    obtain ⟨rfl, rfl⟩ := Prod.mk.inj (Option.some.inj hleave')
    have hgone' : ready'.depth - (if node.shape = .block then 1 else 0) = last.depth := by
      rw [hready', hgone]
      exact Nat.add_sub_cancel _ _
    -- Both have left the node, with all that has been left below it.
    have hdone : ∀ first ∈ more ++ [⟨id, state.depth⟩], tree.Below id first.id :=
      List.forall_mem_append.mpr
        ⟨fun first hf => (hbelow first hf).1, List.forall_mem_singleton.mpr .refl⟩
    rw [List.append_assoc] at hreached
    obtain ⟨hevents', hfinish, rest, hreached', hrest⟩ :=
      ihafter hreached (hahead.rest hdone) hafter' (hserves'.withDepth _) hgone'
    refine ⟨?_, hfinish.trans hgone, more ++ [⟨id, state.depth⟩] ++ rest, ?_, ?_⟩
    · simp only [List.cons_append, List.map_cons, List.map_append, hevents, hevents']
    · rw [← List.append_assoc]
      exact hreached'
    · refine List.forall_mem_append.mpr ⟨fun first hf => ⟨id, .head _, hdone first hf⟩, ?_⟩
      intro first hf
      obtain ⟨next, hn, hb⟩ := hrest first hf
      exact ⟨next, .tail id hn, hb⟩

end Reached

/-- All the nodes that wait end at one place, and there the last node left has ended. -/
def AwaitsOneEnd (reached : Tree × Attribution) : Prop :=
  ∀ id ∈ reached.2.pending, ∃ node, reached.1.node? id = some node ∧
    reached.2.lastStop = some node.span.stop

/-- What is done at a node that is left: a block is closed, then the node gets its share and is
repaired. -/
def Shares (id : NodeId) (before closed after : Tree × Attribution) : Prop :=
  ∃ node, before.1.node? id = some node ∧
    (if node.shape = .block then before.2.leaveBlock before.1 else some before) = some closed ∧
    (closed.2.leaveNode closed.1 id node >>= fun left =>
      (left.1.repair id node.shape left.2.InBody).map (·, left.2)) = some after

/-- How a walk over `tree` stands between two events. -/
structure Stands (log : EditLog) (tree now : Tree) (state : Attribution) : Prop where
  wellFormed : now.WellFormed
  serves : Serves log now state
  keeps : tree.Keeps now
  awaits : AwaitsOneEnd (now, state)
  outside : state.depth = 0 → state.pending = []

namespace Stands

theorem start (hwf : tree.WellFormed) : Stands log tree tree (.start log diagnostics) where
  wellFormed := hwf
  serves := .start
  keeps := .refl tree
  awaits _ hid := nomatch hid
  outside _ := rfl

theorem enter {descend : Bool} (h : Stands log tree now state)
    (henter : enter now id state = some (descend, state')) :
    Stands log tree now state' ∧
      state'.depth = state.depth + if tree.isBlock id then 1 else 0 := by
  cases hnode : now.node? id with
  | none => simp [Attribution.enter, hnode] at henter
  | some node =>
    rw [enter_eq hnode h.serves] at henter
    obtain ⟨-, rfl⟩ := Prod.mk.inj (Option.some.inj henter)
    refine ⟨⟨h.wellFormed, h.serves.withDepth _, h.keeps, h.awaits, fun hdepth => ?_⟩, ?_⟩
    · exact h.outside (Nat.eq_zero_of_add_eq_zero_right hdepth)
    · simp only [h.keeps.isBlock_eq hnode, decide_eq_true_eq]

/-- What leaving a node does before its repair keeps to one end. -/
theorem pending_of_leaves {marked : Finset NodeId} (h : Stands log tree now state)
    (hnode : now.node? id = some node) (hleaves : Leaves now id node state marked state') :
    AwaitsOneEnd (now, state') ∧ (state'.depth = 0 → state'.pending = []) := by
  have hstop := hleaves.lastStop_eq
  rcases hleaves.pending_cases with hnil | ⟨hin, hone | ⟨hmore, hsame⟩⟩ | ⟨hout, hblock, hsame⟩
  · refine ⟨fun other ho => ?_, fun _ => hnil⟩
    rw [hnil] at ho
    cases ho
  · refine ⟨fun other ho => ?_, fun hzero => absurd hzero (Nat.ne_of_gt hin)⟩
    rw [hone, List.mem_singleton] at ho
    exact ⟨node, ho ▸ hnode, hstop⟩
  · refine ⟨fun other ho => ?_, fun hzero => absurd hzero (Nat.ne_of_gt hin)⟩
    rw [hmore, List.mem_cons] at ho
    rcases ho with rfl | ho
    · exact ⟨node, hnode, hstop⟩
    · obtain ⟨waiting, hwaiting, hends⟩ := h.awaits other ho
      exact ⟨waiting, hwaiting, hstop.trans (hsame.symm.trans hends)⟩
  · -- The node is no block, so that the walk has been outside of blocks before.
    have hdepth := hleaves.depth_eq
    rw [if_neg hblock, Nat.sub_zero] at hdepth
    have hnil : state'.pending = [] :=
      hsame.trans (h.outside (hdepth.symm.trans (Nat.eq_zero_of_not_pos hout)))
    refine ⟨fun other ho => ?_, fun _ => hnil⟩
    rw [hnil] at ho
    cases ho

theorem leave (h : Stands log tree now state) (hleave : leave now id state = some (later, state')) :
    Stands log tree later state' ∧
      state'.depth = state.depth - if tree.isBlock id then 1 else 0 := by
  cases hnode : now.node? id with
  | none => simp [Attribution.leave, hnode] at hleave
  | some node =>
    obtain ⟨marked, reached, next, hleaves, hleave', -, hchanged, hserves⟩ :=
      leave_spec h.wellFormed hnode h.serves
    have hkeeps := keeps_of_leave h.wellFormed hnode h.serves hleave
    rw [hleave] at hleave'
    obtain ⟨rfl, rfl⟩ := Prod.mk.inj (Option.some.inj hleave')
    obtain ⟨hawaits, houtside⟩ := h.pending_of_leaves hnode hleaves
    refine ⟨⟨hchanged.wellFormed, hserves, h.keeps.trans hkeeps, fun id hid => ?_, houtside⟩, ?_⟩
    · obtain ⟨waiting, hwaiting, hends⟩ := hawaits id hid
      obtain ⟨other, hother, hres⟩ := hkeeps.resembles id waiting hwaiting
      exact ⟨other, hother, hres.span_eq ▸ hends⟩
    · rw [hleaves.depth_eq]
      simp only [h.keeps.isBlock_eq hnode, decide_eq_true_eq]

/-- A block is counted off before it gets its share, and nothing more than this is. -/
theorem exists_shares (h : Stands log tree now state)
    (hleave : Attribution.leave now id state = some (later, state')) : ∃ closed,
    Shares id (now, state) closed (later, state') ∧ closed.2.depth = state'.depth := by
  have hdepth := (h.leave hleave).2
  cases hnode : now.node? id with
  | none => simp [Attribution.leave, hnode] at hleave
  | some node =>
    rw [leave_eq state hnode, Option.bind_eq_bind, Option.bind_eq_some_iff] at hleave
    obtain ⟨closed, hclosed, hshare⟩ := hleave
    refine ⟨closed, ⟨node, hnode, hclosed, hshare⟩, ?_⟩
    simp only [h.keeps.isBlock_eq hnode, decide_eq_true_eq] at hdepth
    rw [hdepth]
    split at hclosed
    · next hblock => rw [(of_leaveBlock hclosed).2, if_pos hblock]
    · next hblock =>
      cases hclosed
      rw [if_neg hblock, Nat.sub_zero]

end Stands

/-- How things are at a moment of a walk over `tree` behind the events `earlier`. The depth is the
number of open blocks, also while a node that is left gets its share, and the nodes that wait end at
one place. -/
structure Orderly (tree : Tree) (earlier : List WalkEvent) (moment : Moment Attribution) :
    Prop where
  depth_before : moment.before.2.depth = tree.openBlocks earlier
  depth_after : moment.after.2.depth = tree.openBlocks (earlier ++ [moment.event])
  depth_shares : ∀ id, moment.event = .leave id → ∃ closed,
    Shares id moment.before closed moment.after ∧
      closed.2.depth = tree.openBlocks (earlier ++ [moment.event])
  awaits_before : AwaitsOneEnd moment.before
  awaits_after : AwaitsOneEnd moment.after

/-- At every moment of a walk from its start things are as they should be, and at its end nobody
waits. -/
theorem orderly_of_walked {finish : Tree × Attribution} (hwf : tree.WellFormed)
    (h : Tree.Walked visitor ids (tree, .start log diagnostics) moments finish) :
    (∀ earlier moment later, moments = earlier ++ moment :: later →
      Orderly tree (earlier.map (·.event)) moment) ∧
      finish.2.depth = 0 ∧ finish.2.pending = [] := by
  obtain ⟨hstands, hfinish⟩ := h.invariant (Stands log tree) (fun h henter => (h.enter henter).1)
    (fun h hleave => (h.leave hleave).1) (.start hwf)
  have hdeepens : ∀ moment ∈ moments, moment.Deepens tree.isBlock (·.depth) := by
    rintro ⟨event, before, after⟩ hmem
    have hhappens := h.happens _ hmem
    have hbefore := (hstands _ hmem).1
    cases event with
    | enter id =>
      obtain ⟨-, descend, henter⟩ := hhappens
      exact (hbefore.enter henter).2
    | leave id => exact (hbefore.leave hhappens).2
  have hstart :
      (Attribution.start log diagnostics).depth = ([] : List NodeId).countP tree.isBlock :=
    rfl
  obtain ⟨htold, hzero⟩ := h.tellAll hdeepens hstart
  refine ⟨fun earlier moment later hsplit => ?_, hzero, hfinish.outside hzero⟩
  subst hsplit
  have hmem : moment ∈ earlier ++ moment :: later := List.mem_append_right _ List.mem_cons_self
  obtain ⟨hbefore, hafter⟩ := htold.tells
  obtain ⟨hstands, hstands'⟩ := hstands moment hmem
  have hafter' : moment.after.2.depth =
      tree.openBlocks (earlier.map (·.event) ++ [moment.event]) := by
    rw [hafter, Tree.openBlocks, WalkEvent.unfinished, List.foldl_append]
    rfl
  refine ⟨hbefore, hafter', fun id hid => ?_, hstands.awaits, hstands'.awaits⟩
  have hleave := h.happens moment hmem
  rw [Moment.Happens, hid] at hleave
  obtain ⟨closed, hshares, hclosed⟩ := hstands.exists_shares hleave
  exact ⟨closed, hshares, hclosed.trans hafter'⟩

/-- The walk that changes nothing comes to its end. -/
theorem exists_survey (hwf : tree.WellFormed) (hroot : root < tree.size) (log : EditLog)
    (diagnostics : List Diagnostic) : ∃ still,
    tree.walk surveyor root (.start log diagnostics) = some (tree, still) := by
  have hfits : tree.Fits (tree.size + 1) root := hwf.fits (by omega)
  obtain ⟨tree', still, hwalk, -, hsame, -⟩ : ∃ tree' still,
      Tree.walkFrom surveyor (tree.size + 1) root (tree, .start log diagnostics) =
          some (tree', still) ∧
        Tree.ChangedBelow root tree tree' ∧ tree' = tree ∧ Serves log tree still := by
    refine Tree.walkFrom_total surveyor (fun now state => now = tree ∧ Serves log tree state) ?_ ?_
      hwf hroot hfits ⟨rfl, .start⟩
    · rintro _ id state - hid ⟨rfl, hserves⟩
      obtain ⟨node, hnode⟩ := Tree.node?_of_lt_size hid
      exact ⟨_, _, enter_eq hnode hserves, rfl, hserves.withDepth _⟩
    · rintro _ id state hwf hid ⟨rfl, hserves⟩
      obtain ⟨node, hnode⟩ := Tree.node?_of_lt_size hid
      exact ⟨_, _, surveyor_leave hnode, .refl hwf, rfl, hserves.withDepth _⟩
  exact ⟨still, hsame ▸ hwalk⟩

end Attribution

open Attribution

/-- Repairs do not disturb the walk of propagation over a well-formed tree. It comes to its end,
what it enters and leaves is nested, and it enters no node twice. A walk that goes down by the same
rule and leaves the tree as it is enters and leaves the same nodes in the same order. At every
moment the depth is the number of open blocks, with a block that is left counted off before it gets
its share, and the nodes that wait end at one place, where the last node left has ended. In the end
no block is open and no node waits. -/
theorem walk_undisturbed {tree : Tree} {root : NodeId} (hwf : tree.WellFormed)
    (hroot : tree.root = some root) (hknown : root < tree.size) (log : EditLog)
    (diagnostics : List Diagnostic) : ∃ tree' state moments still survey,
    propagate tree diagnostics log = some (tree', state.concerns.map (·.diagnostic)) ∧
    tree.walk visitor root (.start log diagnostics) = some (tree', state) ∧
    tree.walk visitor.recorded root (.start log diagnostics, []) = some (tree', state, moments) ∧
    WalkEvent.Nested (moments.map (·.event)) ∧
    (WalkEvent.entered (moments.map (·.event))).Nodup ∧
    tree.walk surveyor.recorded root (.start log diagnostics, []) = some (tree, still, survey) ∧
    moments.map (·.event) = survey.map (·.event) ∧
    (∀ earlier moment later, moments = earlier ++ moment :: later →
      Orderly tree (earlier.map (·.event)) moment) ∧
    state.depth = 0 ∧ state.pending = [] := by
  have hfits : tree.Fits (tree.size + 1) root := hwf.fits (by omega)
  have hstart : (Attribution.start log diagnostics).depth = 0 := rfl
  obtain ⟨tree', state, hwalk, -⟩ := walkFrom_retraces hwf hknown hfits .start hstart
  obtain ⟨moments, hwalked, hrecorded⟩ := Tree.walk_recorded hwalk
  obtain ⟨still, hsurvey⟩ := exists_survey hwf hknown log diagnostics
  obtain ⟨survey, hwalked', hrecorded'⟩ := Tree.walk_recorded hsurvey
  have hreached : Reached log tree [] tree (.start log diagnostics) := .start hwf
  obtain ⟨hevents, -⟩ := hreached.walked (.start hknown) hwalked hwalked' hwf .start rfl
  obtain ⟨-, hnodup, -⟩ :=
    hwalked'.nodup_entered of_surveyor_leave hwf (List.pairwise_singleton _ _)
  obtain ⟨horderly, hdepth, hpending⟩ := orderly_of_walked hwf hwalked
  refine ⟨tree', state, moments, still, survey, ?_, hwalk, hrecorded, hwalked.nested,
    hevents ▸ hnodup, hrecorded', hevents, horderly, hdepth, hpending⟩
  simp only [propagate, hroot, Tree.walk, hwalk]
  rfl

/-- A token put on the last byte of the assignment. -/
def assignmentToken : EditLog where
  insertions := [⟨.semicolon, [], 3, none, false⟩]

/-- The walk over the block repairs the assignment, which adds two nodes. -/
theorem walk_undisturbed_danglingAssignment : ∃ tree' state moments still survey,
    danglingAssignment.walk visitor.recorded 4 (.start assignmentToken [], []) =
      some (tree', state, moments) ∧ tree'.size = 7 ∧
    danglingAssignment.walk surveyor.recorded 4 (.start assignmentToken [], []) =
      some (danglingAssignment, still, survey) ∧
    moments.map (·.event) = survey.map (·.event) ∧
    moments.map (·.event) = [.enter 4, .enter 3, .enter 2, .enter 0, .leave 0, .enter 1, .leave 1,
      .leave 2, .leave 3, .leave 4] ∧
    (∀ earlier moment later, moments = earlier ++ moment :: later →
      Orderly danglingAssignment (earlier.map (·.event)) moment) ∧
    state.depth = 0 ∧ state.pending = [] := by
  have hlink :
      Tree.link danglingAssignment.nodes danglingAssignment.root = .ok danglingAssignment := by
    decide +kernel
  have hrun : (danglingAssignment.walk visitor.recorded 4 (.start assignmentToken [], [])).map
      (fun reached => (reached.1.size, reached.2.2.map (·.event))) = some (7, [.enter 4, .enter 3,
        .enter 2, .enter 0, .leave 0, .enter 1, .leave 1, .leave 2, .leave 3, .leave 4]) := by
    decide +kernel
  obtain ⟨tree', state, moments, still, survey, -, -, hrecorded, -, -, hsurvey, hevents, horderly,
      hend⟩ :=
    walk_undisturbed (Tree.wellFormed_of_link hlink) rfl (by decide) assignmentToken []
  rw [hrecorded, Option.map_some] at hrun
  obtain ⟨hsize, hlist⟩ := Prod.mk.inj (Option.some.inj hrun)
  exact ⟨tree', state, moments, still, survey, hrecorded, hsize, hsurvey, hevents, hlist, horderly,
    hend⟩

end SyntaxRecovery
