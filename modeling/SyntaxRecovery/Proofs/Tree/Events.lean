import SyntaxRecovery.Proofs.Tree.Subtree

/-! What a walk does, event by event. A visitor can keep a record of the nodes that it enters and
leaves, with the tree and its state at the time. Keeping the record changes nothing else, and the
events of any walk are nested. -/
namespace SyntaxRecovery

/-- A walk enters a node on the way down and leaves it on the way up. -/
inductive WalkEvent where
  | enter (id : NodeId)
  | leave (id : NodeId)
  deriving DecidableEq, Repr

namespace WalkEvent
variable {events : List WalkEvent} {nodes : List NodeId}

/-- The nodes that are entered, in this order. -/
def entered : List WalkEvent → List NodeId
  | [] => []
  | .enter id :: events => id :: entered events
  | .leave _ :: events => entered events

/-- The nodes that are left, in this order. -/
def left : List WalkEvent → List NodeId
  | [] => []
  | .enter _ :: events => left events
  | .leave id :: events => id :: left events

@[simp] theorem entered_append (events more : List WalkEvent) :
    entered (events ++ more) = entered events ++ entered more := by
  induction events with
  | nil => rfl
  | cons event events ih => cases event <;> simp [entered, ih]

@[simp] theorem left_append (events more : List WalkEvent) :
    left (events ++ more) = left events ++ left more := by
  induction events with
  | nil => rfl
  | cons event events ih => cases event <;> simp [left, ih]

/-- The nodes that are entered and not yet left, the last of them first, after an event. -/
def track (nodes : List NodeId) : WalkEvent → List NodeId
  | .enter id => id :: nodes
  | .leave id => nodes.erase id

/-- The nodes that are entered and not yet left after the events. -/
def unfinished (events : List WalkEvent) : List NodeId := events.foldl track []

/-- What is entered is left again, and what is entered in between is left in between. -/
inductive Nested : List WalkEvent → Prop
  | nil : Nested []
  | node {id : NodeId} {inside after : List WalkEvent} (hinside : Nested inside)
    (hafter : Nested after) : Nested (.enter id :: inside ++ .leave id :: after)

theorem Nested.foldl_track (h : Nested events) (nodes : List NodeId) :
    events.foldl track nodes = nodes := by
  induction h generalizing nodes with
  | nil => rfl
  | node _ _ hinside hafter =>
    rw [List.cons_append, List.foldl_cons, List.foldl_append, hinside, List.foldl_cons]
    simp only [track, List.erase_cons_head, hafter]

end WalkEvent

/-- What a walk does at one node, with the tree and the state before and after it. -/
structure Moment (σ : Type) where
  event : WalkEvent
  before : Tree × σ
  after : Tree × σ

variable {σ : Type} {visitor : Visitor σ}

namespace Moment
variable {counts : NodeId → Bool} {depth : σ → Nat} {nodes : List NodeId}
  {moments earlier later : List (Moment σ)} {moment : Moment σ}

/-- What the visitor does at the node. -/
def Happens (visitor : Visitor σ) (moment : Moment σ) : Prop :=
  match moment.event with
  | .enter id => moment.after.1 = moment.before.1 ∧
      ∃ descend, visitor.enter moment.before.1 id moment.before.2 = some (descend, moment.after.2)
  | .leave id => visitor.leave moment.before.1 id moment.before.2 = some moment.after

/-- A node that counts adds one to the depth when it is entered, and takes it away when it is
left. -/
def Deepens (counts : NodeId → Bool) (depth : σ → Nat) (moment : Moment σ) : Prop :=
  match moment.event with
  | .enter id => depth moment.after.2 = depth moment.before.2 + if counts id then 1 else 0
  | .leave id => depth moment.after.2 = depth moment.before.2 - if counts id then 1 else 0

/-- The depth is the number of the nodes that count among those entered and not yet left: before the
moment these are `nodes`. -/
structure Tells (counts : NodeId → Bool) (depth : σ → Nat) (nodes : List NodeId)
    (moment : Moment σ) : Prop where
  before_eq : depth moment.before.2 = nodes.countP counts
  after_eq : depth moment.after.2 = (WalkEvent.track nodes moment.event).countP counts

/-- Each of the moments does, where `nodes` are entered and not yet left before the first. -/
def TellAll (counts : NodeId → Bool) (depth : σ → Nat) : List NodeId → List (Moment σ) → Prop
  | _, [] => True
  | nodes, moment :: moments =>
    moment.Tells counts depth nodes ∧
      TellAll counts depth (WalkEvent.track nodes moment.event) moments

theorem tellAll_append : TellAll counts depth nodes (earlier ++ later) ↔
    TellAll counts depth nodes earlier ∧
      TellAll counts depth ((earlier.map (·.event)).foldl WalkEvent.track nodes) later := by
  induction earlier generalizing nodes with
  | nil => exact (true_and _).symm.to_iff
  | cons moment earlier ih =>
    rw [List.cons_append, TellAll, TellAll, ih, List.map_cons, List.foldl_cons, and_assoc]

theorem TellAll.tells (h : TellAll counts depth nodes (earlier ++ moment :: later)) :
    moment.Tells counts depth ((earlier.map (·.event)).foldl WalkEvent.track nodes) :=
  (tellAll_append.mp h).2.1

end Moment

/-- The visitor with a record of what it has done. -/
def Visitor.recorded (visitor : Visitor σ) : Visitor (σ × List (Moment σ)) where
  enter tree id reached := do
    let (state, moments) := reached
    let (descend, state') ← visitor.enter tree id state
    return (descend, state', moments ++ [⟨.enter id, (tree, state), (tree, state')⟩])
  leave tree id reached := do
    let (state, moments) := reached
    let (tree', state') ← visitor.leave tree id state
    return (tree', state', moments ++ [⟨.leave id, (tree, state), (tree', state')⟩])

namespace Tree
variable {tree tree' : Tree} {id : NodeId} {ids : List NodeId} {state state' : σ}
  {moments : List (Moment σ)} {start finish : Tree × σ}

/-- `Walked visitor ids start moments finish`: a walk over the nodes `ids` one after the other does
what `moments` says and leads from `start` to `finish`. -/
inductive Walked (visitor : Visitor σ) :
    List NodeId → Tree × σ → List (Moment σ) → Tree × σ → Prop
  | nil {start : Tree × σ} : Walked visitor [] start [] start
  | node {id : NodeId} {ids : List NodeId} {tree reached left : Tree} {state entered ready gone : σ}
    {descend : Bool} {inside after : List (Moment σ)} {finish : Tree × σ}
    (henter : visitor.enter tree id state = some (descend, entered))
    (hinside : Walked visitor (if descend then tree.children id else []) (tree, entered) inside
      (reached, ready))
    (hleave : visitor.leave reached id ready = some (left, gone))
    (hafter : Walked visitor ids (left, gone) after finish) :
    Walked visitor (id :: ids) (tree, state)
      (⟨.enter id, (tree, state), (tree, entered)⟩ :: inside ++
        ⟨.leave id, (reached, ready), (left, gone)⟩ :: after) finish

namespace Walked

theorem nested (h : Walked visitor ids start moments finish) :
    WalkEvent.Nested (moments.map (·.event)) := by
  induction h with
  | nil => exact .nil
  | node _ _ _ _ ihinside ihafter =>
    rw [List.cons_append, List.map_cons, List.map_append, List.map_cons]
    exact .node ihinside ihafter

/-- What entering and leaving a node keep holds before and after all that the walk does. -/
theorem invariant (inv : Tree → σ → Prop)
    (henter : ∀ {tree id state descend state'}, inv tree state →
      visitor.enter tree id state = some (descend, state') → inv tree state')
    (hleave : ∀ {tree id state tree' state'}, inv tree state →
      visitor.leave tree id state = some (tree', state') → inv tree' state')
    (h : Walked visitor ids start moments finish) (hstart : inv start.1 start.2) :
    (∀ moment ∈ moments, inv moment.before.1 moment.before.2 ∧
      inv moment.after.1 moment.after.2) ∧ inv finish.1 finish.2 := by
  induction h with
  | nil => exact ⟨fun _ hmem => (List.not_mem_nil hmem).elim, hstart⟩
  | node hentered _ hleft _ ihinside ihafter =>
    have hentered' := henter hstart hentered
    obtain ⟨hinside, hready⟩ := ihinside hentered'
    have hgone := hleave hready hleft
    obtain ⟨hafter, hfinish⟩ := ihafter hgone
    refine ⟨fun moment hmem => ?_, hfinish⟩
    rw [List.cons_append, List.mem_cons, List.mem_append, List.mem_cons] at hmem
    rcases hmem with rfl | hmem | rfl | hmem
    · exact ⟨hstart, hentered'⟩
    · exact hinside moment hmem
    · exact ⟨hready, hgone⟩
    · exact hafter moment hmem

theorem happens (h : Walked visitor ids start moments finish) :
    ∀ moment ∈ moments, moment.Happens visitor := by
  induction h with
  | nil => exact fun _ hmem => (List.not_mem_nil hmem).elim
  | node henter _ hleave _ ihinside ihafter =>
    simp only [List.cons_append, List.forall_mem_cons, List.forall_mem_append]
    exact ⟨⟨rfl, _, henter⟩, ihinside, hleave, ihafter⟩

/-- Where each moment changes the depth by what its node counts, the depth is at all times the
number of the nodes that count among those that are entered and not yet left. -/
theorem tellAll {counts : NodeId → Bool} {depth : σ → Nat}
    (h : Walked visitor ids start moments finish)
    (hdeepens : ∀ moment ∈ moments, moment.Deepens counts depth) {nodes : List NodeId}
    (hstart : depth start.2 = nodes.countP counts) :
    Moment.TellAll counts depth nodes moments ∧ depth finish.2 = nodes.countP counts := by
  induction h generalizing nodes with
  | nil => exact ⟨trivial, hstart⟩
  | @node id _ _ _ _ _ entered ready gone _ _ _ _ _ hinside _ _ ihinside ihafter =>
    simp only [List.cons_append, List.forall_mem_cons, List.forall_mem_append] at hdeepens
    obtain ⟨henter, hin, hleave, hout⟩ := hdeepens
    have hentered : depth entered = (id :: nodes).countP counts := by
      rw [List.countP_cons, ← hstart]
      exact henter
    obtain ⟨htold, hready⟩ := ihinside hin hentered
    have hgone : depth gone = nodes.countP counts := by
      have hleft : depth gone = depth ready - if counts id then 1 else 0 := hleave
      rw [hleft, hready, List.countP_cons, Nat.add_sub_cancel]
    obtain ⟨htold', hfinish⟩ := ihafter hout hgone
    -- What is entered inside is left inside, so that the node itself is the last one entered again.
    have herase : WalkEvent.track (id :: nodes) (.leave id) = nodes := List.erase_cons_head id nodes
    refine ⟨⟨⟨hstart, hentered⟩, Moment.tellAll_append.mpr ⟨htold, ?_⟩⟩, hfinish⟩
    rw [hinside.nested.foldl_track]
    exact ⟨⟨hready, herase.symm ▸ hgone⟩, herase.symm ▸ htold'⟩

/-- A walk over a node comes before a walk over others. -/
theorem cons {first rest : List (Moment σ)} {middle : Tree × σ}
    (h : Walked visitor [id] start first middle) (h' : Walked visitor ids middle rest finish) :
    Walked visitor (id :: ids) start (first ++ rest) finish := by
  obtain - | ⟨henter, hinside, hleave, hafter⟩ := h
  cases hafter
  rw [List.append_assoc]
  exact .node henter hinside hleave h'

end Walked

/-- Children over which a walk goes one after the other. -/
theorem foldlM_recorded {levels : Nat} (hstep : ∀ {id tree tree' state state'},
      walkFrom visitor levels id (tree, state) = some (tree', state') → ∃ moments,
        Walked visitor [id] (tree, state) moments (tree', state') ∧
        ∀ earlier, walkFrom visitor.recorded levels id (tree, state, earlier) =
          some (tree', state', earlier ++ moments))
    (h : ids.foldlM (fun reached child => walkFrom visitor levels child reached) (tree, state) =
      some (tree', state')) : ∃ moments,
      Walked visitor ids (tree, state) moments (tree', state') ∧
      ∀ earlier, ids.foldlM (fun reached child => walkFrom visitor.recorded levels child reached)
        (tree, state, earlier) = some (tree', state', earlier ++ moments) := by
  induction ids generalizing tree state with
  | nil =>
    cases h
    exact ⟨[], .nil, fun earlier => by simp⟩
  | cons id ids ih =>
    rw [List.foldlM_cons] at h
    obtain ⟨⟨next, reached⟩, hnext, h⟩ := Option.bind_eq_some_iff.mp h
    obtain ⟨first, hfirst, hrecorded⟩ := hstep hnext
    obtain ⟨rest, hrest, hrecorded'⟩ := ih h
    refine ⟨first ++ rest, hfirst.cons hrest, fun earlier => ?_⟩
    rw [List.foldlM_cons, hrecorded, Option.bind_eq_bind, Option.bind_some, hrecorded',
      List.append_assoc]

/-- A walk that comes to its end does so with a record of its events, and by the same way. -/
theorem walkFrom_recorded {levels : Nat}
    (h : walkFrom visitor levels id (tree, state) = some (tree', state')) : ∃ moments,
      Walked visitor [id] (tree, state) moments (tree', state') ∧
      ∀ earlier, walkFrom visitor.recorded levels id (tree, state, earlier) =
        some (tree', state', earlier ++ moments) := by
  induction levels generalizing id tree state tree' state' with
  | zero => cases h
  | succ levels ih =>
    simp only [walkFrom, Option.bind_eq_bind] at h
    obtain ⟨⟨descend, entered⟩, hentered, h⟩ := Option.bind_eq_some_iff.mp h
    have hrecorded (earlier : List (Moment σ)) : visitor.recorded.enter tree id (state, earlier) =
        some (descend, entered, earlier ++ [⟨.enter id, (tree, state), (tree, entered)⟩]) := by
      simp [Visitor.recorded, hentered]
    have hleave {reached : Tree} {ready : σ} (earlier : List (Moment σ))
        (hleft : visitor.leave reached id ready = some (tree', state')) :
        visitor.recorded.leave reached id (ready, earlier) = some (tree', state',
          earlier ++ [⟨.leave id, (reached, ready), (tree', state')⟩]) := by
      simp [Visitor.recorded, hleft]
    cases descend with
    | false =>
      refine ⟨_, .node hentered .nil h .nil, fun earlier => ?_⟩
      simp [walkFrom, hrecorded, hleave _ h]
    | true =>
      simp only [if_true] at h
      obtain ⟨node, hnode, h⟩ := Option.bind_eq_some_iff.mp h
      obtain ⟨⟨reached, ready⟩, hwalked, h⟩ := Option.bind_eq_some_iff.mp h
      obtain ⟨inside, hinside, hrecorded'⟩ := foldlM_recorded ih hwalked
      rw [← children_of_node? hnode] at hinside
      refine ⟨_, .node hentered hinside h .nil, fun earlier => ?_⟩
      simp [walkFrom, hrecorded, hnode, hrecorded', hleave _ h]

theorem walk_recorded (h : tree.walk visitor id state = some (tree', state')) : ∃ moments,
    Walked visitor [id] (tree, state) moments (tree', state') ∧
      tree.walk visitor.recorded id (state, []) = some (tree', state', moments) := by
  obtain ⟨moments, hwalked, hrecorded⟩ := walkFrom_recorded h
  exact ⟨moments, hwalked, hrecorded []⟩

end Tree
end SyntaxRecovery
