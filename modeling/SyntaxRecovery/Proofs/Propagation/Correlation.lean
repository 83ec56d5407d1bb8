import SyntaxRecovery.Proofs.Propagation.Departures
import SyntaxRecovery.Proofs.Propagation.Marking

/-! Diagnostics and the nodes that claim them. A run with diagnostics goes as the run without them.
It differs in the units of the outline that are flagged for a diagnostic, and these flags change
nothing further. -/
namespace SyntaxRecovery

namespace Departure
variable {tree : Tree} {departure : Departure} {diagnostic : Diagnostic}

/-- Leaving the node settles the diagnostics in it. It lies in a block, or is a unit of the
outline. -/
def Settles (tree : Tree) (departure : Departure) : Prop :=
  0 < departure.depth ∨ ∃ node ∈ tree.node? departure.id, node.shape.isOutlineUnit = true

instance (tree : Tree) (departure : Departure) : Decidable (departure.Settles tree) :=
  inferInstanceAs (Decidable (_ ∨ _))

/-- The node may claim the diagnostic. -/
def Concerns (tree : Tree) (diagnostic : Diagnostic) (departure : Departure) : Prop :=
  diagnostic.category.IsSyntactic ∧ departure.Settles tree ∧
    ∃ node ∈ tree.node? departure.id, diagnostic.Touches node.span.start node.span.last

instance (tree : Tree) (diagnostic : Diagnostic) : DecidablePred (Concerns tree diagnostic) :=
  fun _ => inferInstanceAs (Decidable (_ ∧ _ ∧ _))

theorem Concerns.of_mem_find? {left : List Departure}
    (h : departure ∈ left.find? (Concerns tree diagnostic ·)) :
    departure.Concerns tree diagnostic := by
  have hfound := List.find?_some (Option.mem_def.mp h)
  exact of_decide_eq_true hfound

end Departure

/-- The first node left that may claim the diagnostic. -/
def Tree.claimant? (tree : Tree) (log : EditLog) (diagnostic : Diagnostic) : Option Departure :=
  (tree.departures log).find? (Departure.Concerns tree diagnostic ·)

/-- A diagnostic when the nodes of the list have been left. -/
def Concern.after (tree : Tree) (left : List Departure) (diagnostic : Diagnostic) : Concern where
  diagnostic := { diagnostic with
    used := diagnostic.used || left.any (Departure.Concerns tree diagnostic ·) }
  settled := left.any fun departure => departure.Settles tree ∧
    (¬ diagnostic.category.IsSyntactic ∨ departure.Concerns tree diagnostic)

namespace Attribution
variable {tree tree' : Tree} {marked : Finset NodeId} {concerns : List Concern}
    {state : Attribution}
  {id : NodeId} {node node' : Node} {log : EditLog}

/-- The tree with some nodes flagged, and the state with other diagnostics. -/
def overlay (marked : Finset NodeId) (concerns : List Concern) (reached : Tree × Attribution) :
    Tree × Attribution :=
  (reached.1.markAll marked, { reached.2 with concerns })

section Overlay
variable (tree marked concerns state)

theorem flush_overlay : flush (tree.markAll marked) { state with concerns } =
    (state.flush tree).map (overlay marked concerns) := by
  let mark (reached : Tree × List Offer) : Tree × List Offer :=
    (reached.1.markAll marked, reached.2)
  have hend : state.pending.reverse.foldlM Tree.claimAtEnd (tree.markAll marked, state.offers) =
      (state.pending.reverse.foldlM Tree.claimAtEnd (tree, state.offers)).map mark :=
    Tree.foldlM_semiconj (Tree.claimAtEnd_markAll marked) _ (tree, state.offers)
  have hinside (reached : Tree × List Offer) :
      state.pending.reverse.foldlM Tree.claimInside (mark reached) =
        (state.pending.reverse.foldlM Tree.claimInside reached).map mark :=
    Tree.foldlM_semiconj (Tree.claimInside_markAll marked) _ reached
  simp only [flush, hend]
  cases state.pending.reverse.foldlM Tree.claimAtEnd (tree, state.offers) with
  | none => rfl
  | some reached =>
    simp only [Option.map_some, Option.bind_eq_bind, Option.bind_some, hinside]
    cases state.pending.reverse.foldlM Tree.claimInside reached <;> rfl

theorem leaveBlock_overlay : leaveBlock (tree.markAll marked) { state with concerns } =
    (state.leaveBlock tree).map (overlay marked concerns) := by
  let inner : Attribution := { state with depth := state.depth - 1 }
  change (if inner.InBody then some (tree.markAll marked, { inner with concerns })
    else flush (tree.markAll marked) { inner with concerns }) =
      (if inner.InBody then some (tree, inner) else inner.flush tree).map (overlay marked concerns)
  split
  · rfl
  · exact flush_overlay tree marked concerns inner

theorem await_overlay (id : NodeId) (hspan : node'.span = node.span) :
    await (tree.markAll marked) id node' { state with concerns } =
      (state.await tree id node).map (overlay marked concerns) := by
  rw [await_eq, await_eq, hspan]
  split
  · rfl
  · split
    · rfl
    · rw [flush_overlay]
      cases state.flush tree <;> rfl

end Overlay

theorem flagIf_markAll_comm (reason : Bool) : (tree.markAll marked).flagIf id reason =
    (tree.flagIf id reason).map (·.markAll marked) := by
  unfold Tree.flagIf
  split
  · exact Tree.flagRecovered_markAll_comm
  · rfl

theorem leaveBody_overlay (hspan : node'.span = node.span) :
    leaveBody (tree.markAll marked) id node' { state with concerns } =
      (state.leaveBody tree id node).map
        (overlay marked (concerns.map (Concern.settle node.span))) := by
  have hawait : await (tree.markAll marked) id node'
      (settle { state with concerns } node'.span) =
        ((state.settle node.span).await tree id node).map
          (overlay marked (concerns.map (Concern.settle node.span))) := by
    rw [hspan]
    exact await_overlay tree marked (concerns.map (Concern.settle node.span))
      (state.settle node.span) id hspan
  rw [leaveBody_eq, leaveBody_eq, hawait]
  cases (state.settle node.span).await tree id node with
  | none => rfl
  | some reached =>
    have hclaims :
        (overlay marked (concerns.map (Concern.settle node.span)) reached).2.claimsStretch
        node' = reached.2.claimsStretch node := by
      simp only [claimsStretch, overlay, hspan]
    simp only [Option.map_some, Option.bind_eq_bind, Option.bind_some, hclaims]
    simp only [overlay, flagIf_markAll_comm, hspan]
    cases reached.1.flagIf id (reached.2.claimsStretch node) <;> rfl

/-- A unit of the outline is flagged for one of the diagnostics. -/
def FlagsUnit (depth : Nat) (node : Node) (concerns : List Concern) : Prop :=
  depth = 0 ∧ node.shape.isOutlineUnit = true ∧ ∃ concern ∈ concerns, concern.Hits node.span

instance (depth : Nat) (node : Node) (concerns : List Concern) :
    Decidable (FlagsUnit depth node concerns) := inferInstanceAs (Decidable (_ ∧ _ ∧ _))

/-- The diagnostics when a node has been left. -/
def settleAt (depth : Nat) (node : Node) (concerns : List Concern) : List Concern :=
  if 0 < depth ∨ node.shape.isOutlineUnit = true then concerns.map (Concern.settle node.span)
  else concerns

theorem leaveOutline_overlay (hid : id < tree.size) (hconcerns : state.concerns = [])
    (hshape : node'.shape = node.shape) (hspan : node'.span = node.span) (hbody : state.depth = 0) :
    leaveOutline (tree.markAll marked) id node' { state with concerns } =
      (state.leaveOutline tree id node).map
        (overlay (if FlagsUnit state.depth node concerns then insert id marked else marked)
          (settleAt state.depth node concerns)) := by
  have hplain : state.settle node.span = state := by
    unfold settle
    rw [hconcerns]
    exact congrArg (fun concerns => { state with concerns }) hconcerns.symm
  rw [leaveOutline_eq, leaveOutline_eq, hshape, hspan, hplain]
  by_cases hunit : node.shape.isOutlineUnit = true
  · have hquiet : tree.flagIf id (state.concerns.any fun concern => concern.Hits node.span) =
        some tree := by
      rw [hconcerns]
      rfl
    have hflags : FlagsUnit state.depth node concerns ↔
        concerns.any (fun concern => concern.Hits node.span) = true := by
      simp only [FlagsUnit, hbody, hunit, true_and, List.any_eq_true, decide_eq_true_eq]
    have hsettle : settleAt state.depth node concerns = concerns.map (Concern.settle node.span) :=
      if_pos (.inr hunit)
    rw [if_pos hunit, if_pos hunit, hquiet, flagIf_markAll hid, hsettle]
    simp only [hflags]
    rfl
  · have hflags : ¬ FlagsUnit state.depth node concerns := fun h => hunit h.2.1
    have hsettle : settleAt state.depth node concerns = concerns := by
      apply if_neg
      rw [hbody]
      exact fun h => h.elim (Nat.lt_irrefl 0) hunit
    rw [if_neg hunit, if_neg hunit, if_neg hflags, hsettle]
    rfl

theorem leaveNode_overlay (marked : Finset NodeId) (concerns : List Concern)
    (hid : id < tree.size) (hconcerns : state.concerns = []) (hshape : node'.shape = node.shape)
    (hspan : node'.span = node.span) :
    leaveNode (tree.markAll marked) id node' { state with concerns } =
      (state.leaveNode tree id node).map
        (overlay (if FlagsUnit state.depth node concerns then insert id marked else marked)
          (settleAt state.depth node concerns)) := by
  rw [leaveNode_eq, leaveNode_eq, hspan]
  by_cases hbody : 0 < state.depth
  · have hflags : ¬ FlagsUnit state.depth node concerns := fun h => Nat.ne_of_gt hbody h.1
    have hsettle : settleAt state.depth node concerns = concerns.map (Concern.settle node.span) :=
      if_pos (.inl hbody)
    have hin : state.InBody := hbody
    have hin' : ({ state with concerns } : Attribution).InBody := hbody
    rw [if_pos hin, if_pos hin', leaveBody_overlay hspan, if_neg hflags, hsettle]
    cases state.leaveBody tree id node <;> rfl
  · have hout : ¬ state.InBody := hbody
    have hout' : ¬ ({ state with concerns } : Attribution).InBody := hbody
    rw [if_neg hout, if_neg hout',
      leaveOutline_overlay hid hconcerns hshape hspan (Nat.eq_zero_of_not_pos hbody)]
    cases state.leaveOutline tree id node <;> rfl

/-- Without diagnostics there are none afterwards. -/
theorem concerns_of_leaveNode {left : Tree × Attribution} (hid : id < tree.size)
    (hconcerns : state.concerns = []) (h : state.leaveNode tree id node = some left) :
    left.2.concerns = [] := by
  have hempty : { state with concerns := [] } = state :=
    congrArg (fun concerns => { state with concerns }) hconcerns.symm
  have hsame : leaveNode (tree.markAll ∅) id node { state with concerns := [] } =
      (state.leaveNode tree id node).map
        (overlay (if FlagsUnit state.depth node [] then insert id ∅ else ∅)
          (settleAt state.depth node [])) :=
    leaveNode_overlay ∅ [] hid hconcerns rfl rfl
  rw [Tree.markAll_empty, hempty, h] at hsame
  have hleft := congrArg (·.2.concerns) (Option.some.inj hsame)
  refine hleft.trans ?_
  simp only [overlay, settleAt]
  split <;> rfl

/-- Leaving a node with diagnostics goes as leaving it without them. -/
theorem leave_overlay {left : Tree × Attribution} {depth : Nat} {marked : Finset NodeId}
    (concerns : List Concern) (hwf : tree.WellFormed)
    (hnode : tree.node? id = some node) (hserves : Serves log tree state)
    (hconcerns : state.concerns = []) (hunits : tree.HoldsUnits marked)
    (hdepth : state.depth = depth + if node.shape = .block then 1 else 0)
    (hleave : state.leave tree id = some left) : left.2.concerns = [] ∧
      leave (tree.markAll marked) id { state with concerns } =
        some (overlay (if FlagsUnit depth node concerns then insert id marked else marked)
          (settleAt depth node concerns) left) := by
  obtain ⟨flagged, next, -, hsteps⟩ := exists_leaves hwf hnode hserves
  have hleave' := hleave
  rw [leave_eq state hnode, ← bind_assoc, hsteps, Option.bind_eq_bind, Option.bind_some,
    Option.map_eq_some_iff] at hleave'
  obtain ⟨tree', hrepair, rfl⟩ := hleave'
  obtain ⟨reached, hblock, hnext⟩ := Option.bind_eq_some_iff.mp hsteps
  -- The state when the block, if the node is one, has been closed.
  have hreached : id < reached.1.size ∧ reached.2.concerns = [] ∧ reached.2.depth = depth ∧
      (if node.shape = .block then leaveBlock (tree.markAll marked) { state with concerns }
        else some (tree.markAll marked, { state with concerns })) =
          some (overlay marked concerns reached) := by
    have hid := Tree.lt_size_of_node? hnode
    by_cases hshape : node.shape = .block
    · rw [if_pos hshape] at hblock hdepth ⊢
      obtain ⟨hquiet, hcount⟩ := of_leaveBlock hblock
      obtain ⟨closed, next, hclosed, -, hskeleton, -⟩ := leaveBlock_onlyFlags hwf hserves.known
      obtain rfl := Option.some.inj (hblock.symm.trans hclosed)
      refine ⟨Tree.size_eq_of_skeleton hskeleton ▸ hid, hquiet.trans hconcerns, ?_, ?_⟩
      · rw [hcount, hdepth, Nat.add_sub_cancel]
      · rw [leaveBlock_overlay, hblock]
        rfl
    · rw [if_neg hshape] at hblock hdepth ⊢
      cases hblock
      exact ⟨hid, hconcerns, hdepth, rfl⟩
  obtain ⟨hid, hquiet, rfl, hblock'⟩ := hreached
  obtain ⟨node', hnode', -, hshape, hspan⟩ := Tree.node?_markAll_of_node? marked hnode
  have hnext' := leaveNode_overlay marked concerns hid hquiet hshape hspan
  rw [hnext, Option.map_some] at hnext'
  have hunits' : (tree.markAll flagged).HoldsUnits
      (if FlagsUnit reached.2.depth node concerns then insert id marked else marked) := by
    refine Tree.HoldsUnits.keeps ?_ (Tree.keeps_markAll tree flagged)
    split
    · next hflags => exact hunits.insert hnode hflags.2.1
    · exact hunits
  have hquiet' : next.concerns = [] := concerns_of_leaveNode hid hquiet hnext
  constructor
  · exact hquiet'
  · rw [leave_eq _ hnode', hshape, hblock', Option.bind_eq_bind, Option.bind_some]
    simp only [overlay] at hnext' ⊢
    rw [hnext', Option.bind_some]
    dsimp only
    have hrepair' : (tree.markAll flagged).repair id node.shape (decide ({ next with
        concerns := settleAt reached.2.depth node concerns } : Attribution).InBody) = some tree' :=
      hrepair
    rw [Tree.repair_markAll hunits', hrepair']
    rfl

section After
variable {left : List Departure} {departure : Departure} {diagnostic : Diagnostic}
  {diagnostics : List Diagnostic} (hnode : tree.node? departure.id = some node)
include hnode

theorem settles_iff : departure.Settles tree ↔
    0 < departure.depth ∨ node.shape.isOutlineUnit = true := by
  simp only [Departure.Settles, hnode, Option.mem_def, Option.some.injEq, exists_eq_left']

theorem concerns_iff : departure.Concerns tree diagnostic ↔ diagnostic.category.IsSyntactic ∧
    departure.Settles tree ∧ diagnostic.Touches node.span.start node.span.last := by
  simp only [Departure.Concerns, hnode, Option.mem_def, Option.some.injEq, exists_eq_left']

omit hnode in
theorem settled_after (hsyntactic : diagnostic.category.IsSyntactic) :
    (Concern.after tree left diagnostic).settled =
      left.any (Departure.Concerns tree diagnostic ·) := by
  refine congrArg left.any (funext fun departure => decide_eq_decide.mpr ?_)
  constructor
  · intro h
    exact h.2.resolve_left fun hnot => hnot hsyntactic
  · intro h
    exact ⟨h.2.1, .inr h⟩

omit hnode in
theorem after_append : Concern.after tree (left ++ [departure]) diagnostic =
    { diagnostic := { diagnostic with
        used := (Concern.after tree left diagnostic).diagnostic.used ||
          departure.Concerns tree diagnostic }
      settled := (Concern.after tree left diagnostic).settled || decide (departure.Settles tree ∧
        (¬ diagnostic.category.IsSyntactic ∨ departure.Concerns tree diagnostic)) } := by
  simp only [Concern.after, List.any_append, List.any_cons, List.any_nil, Bool.or_false,
    Bool.or_assoc]

/-- A node that settles diagnostics hits those that it is the first to claim. -/
theorem hits_after (hsettles : departure.Settles tree) :
    (Concern.after tree left diagnostic).Hits node.span ↔
      left.find? (Departure.Concerns tree diagnostic ·) = none ∧
        departure.Concerns tree diagnostic := by
  rw [concerns_iff hnode]
  by_cases hsyntactic : diagnostic.category.IsSyntactic
  · simp only [Concern.Hits, settled_after hsyntactic, List.find?_eq_none, List.any_eq_false,
      decide_eq_true_eq, hsettles, true_and]
    rfl
  · constructor
    · intro h
      exact absurd h.2.1 hsyntactic
    · intro h
      exact absurd h.2.1 hsyntactic

theorem settle_after (hsettles : departure.Settles tree) :
    (Concern.after tree left diagnostic).settle node.span =
      Concern.after tree (left ++ [departure]) diagnostic := by
  rw [after_append]
  unfold Concern.settle
  split
  · next hhits =>
    obtain ⟨-, hclaims⟩ := (hits_after hnode hsettles).mp hhits
    simp [Concern.after, hclaims, hsettles]
  · next hnot =>
    by_cases hsyntactic : diagnostic.category.IsSyntactic
    · by_cases hclaims : departure.Concerns tree diagnostic
      · -- Another node has claimed it.
        have hany : left.any (Departure.Concerns tree diagnostic ·) = true := by
          by_contra hnone
          apply hnot
          apply (hits_after hnode hsettles).mpr
          refine ⟨?_, hclaims⟩
          simpa using hnone
        have hsettled : (Concern.after tree left diagnostic).settled = true :=
          (settled_after hsyntactic).trans hany
        have hused : (Concern.after tree left diagnostic).diagnostic =
            { diagnostic with used := true } := by
          simp only [Concern.after, hany, Bool.or_true]
        rw [hsettled, hused]
        simp only [Bool.true_or]
      · simp [Concern.after, hsyntactic, hclaims]
    · have hclaims : ¬ departure.Concerns tree diagnostic := fun h => hsyntactic h.1
      simp [Concern.after, hsyntactic, hclaims, hsettles]

theorem settleAt_after : settleAt departure.depth node (diagnostics.map (Concern.after tree left)) =
    diagnostics.map (Concern.after tree (left ++ [departure])) := by
  by_cases hsettles : departure.Settles tree
  · rw [settleAt, if_pos ((settles_iff hnode).mp hsettles), List.map_map]
    apply List.map_congr_left
    intro diagnostic _
    exact settle_after hnode hsettles
  · rw [settleAt, if_neg (mt (settles_iff hnode).mpr hsettles)]
    apply List.map_congr_left
    intro diagnostic _
    have hclaims : ¬ departure.Concerns tree diagnostic := fun h => hsettles h.2.1
    rw [after_append]
    simp [Concern.after, hsettles, hclaims]

end After

section Run
variable {left : List Departure} {departure : Departure} {diagnostics : List Diagnostic}
  {plain plain' : Tree} {state' : Attribution}

/-- A unit of the outline that is the first of the list to claim some diagnostic. -/
def ClaimsFirst (tree : Tree) (left : List Departure) (diagnostics : List Diagnostic)
    (id : NodeId) : Prop :=
  ∃ diagnostic ∈ diagnostics, ∃ departure ∈ left.find? (Departure.Concerns tree diagnostic ·),
    departure.depth = 0 ∧ departure.id = id

theorem claimsFirst_append (hnode : tree.node? departure.id = some node) :
    ClaimsFirst tree (left ++ [departure]) diagnostics id ↔
      ClaimsFirst tree left diagnostics id ∨
        departure.id = id ∧
          FlagsUnit departure.depth node (diagnostics.map (Concern.after tree left)) := by
  have hfirst (diagnostic : Diagnostic) :
      (∃ last ∈ (left ++ [departure]).find? (Departure.Concerns tree diagnostic ·),
        last.depth = 0 ∧ last.id = id) ↔
      (∃ last ∈ left.find? (Departure.Concerns tree diagnostic ·),
        last.depth = 0 ∧ last.id = id) ∨
      (left.find? (Departure.Concerns tree diagnostic ·) = none ∧
        departure.Concerns tree diagnostic) ∧ departure.depth = 0 ∧ departure.id = id := by
    rw [List.find?_append]
    cases left.find? (Departure.Concerns tree diagnostic ·) with
    | some last => simp
    | none => by_cases hclaims : departure.Concerns tree diagnostic <;> simp [hclaims]
  have hflags : FlagsUnit departure.depth node (diagnostics.map (Concern.after tree left)) ↔
      departure.depth = 0 ∧ ∃ diagnostic ∈ diagnostics,
        left.find? (Departure.Concerns tree diagnostic ·) = none ∧
          departure.Concerns tree diagnostic := by
    simp only [FlagsUnit, List.mem_map, exists_exists_and_eq_and]
    constructor
    · rintro ⟨hdepth, hunit, diagnostic, hd, hhits⟩
      have hsettles := (settles_iff hnode).mpr (.inr hunit)
      exact ⟨hdepth, diagnostic, hd, (hits_after hnode hsettles).mp hhits⟩
    · rintro ⟨hdepth, diagnostic, hd, hfirst, hclaims⟩
      have hunit := ((settles_iff hnode).mp hclaims.2.1).resolve_left
        (Nat.not_lt_of_le (Nat.le_of_eq hdepth))
      exact ⟨hdepth, hunit, diagnostic, hd, (hits_after hnode hclaims.2.1).mpr ⟨hfirst, hclaims⟩⟩
  simp only [ClaimsFirst, hfirst, hflags]
  constructor
  · rintro ⟨diagnostic, hd, hclaims | ⟨hclaims, hdepth, heq⟩⟩
    · exact .inl ⟨diagnostic, hd, hclaims⟩
    · exact .inr ⟨heq, hdepth, diagnostic, hd, hclaims⟩
  · rintro (⟨diagnostic, hd, hclaims⟩ | ⟨heq, hdepth, diagnostic, hd, hclaims⟩)
    · exact ⟨diagnostic, hd, .inl hclaims⟩
    · exact ⟨diagnostic, hd, .inr ⟨hclaims, hdepth, heq⟩⟩

/-- A run with diagnostics, next to one without them, when the nodes of the list have been left. -/
structure Correlated (log : EditLog) (diagnostics : List Diagnostic) (tree : Tree)
    (left : List Departure) (plain : Tree) (state : Attribution) : Prop where
  keeps : tree.Keeps plain
  concerns_eq : state.concerns = []
  run : ∃ marked, (∀ id, id ∈ marked ↔ ClaimsFirst tree left diagnostics id) ∧
    left.foldlM depart (tree, .start log diagnostics) =
      some (overlay marked (diagnostics.map (Concern.after tree left)) (plain, state))

namespace Correlated

theorem start (tree : Tree) : Correlated log diagnostics tree [] tree (.start log []) where
  keeps := .refl tree
  concerns_eq := rfl
  run := by
    refine ⟨∅, fun id => ?_, ?_⟩
    · simp [ClaimsFirst]
    · have hafter : diagnostics.map (Concern.after tree []) =
          (Attribution.start log diagnostics).concerns := by
        apply List.map_congr_left
        intro diagnostic _
        simp [Concern.after]
      rw [hafter, List.foldlM_nil, overlay, Tree.markAll_empty]
      rfl

theorem holdsUnits (h : Correlated log diagnostics tree left plain state)
    (hmarked : ∀ id, id ∈ marked ↔ ClaimsFirst tree left diagnostics id) :
    plain.HoldsUnits marked := by
  intro id hid
  obtain ⟨diagnostic, -, departure, hfirst, hdepth, rfl⟩ := (hmarked id).mp hid
  have hclaims := Departure.Concerns.of_mem_find? hfirst
  obtain ⟨node, hnode, hunit⟩ := hclaims.2.1.resolve_left (Nat.not_lt_of_le (Nat.le_of_eq hdepth))
  obtain ⟨other, hother, hres⟩ := h.keeps.resembles departure.id node hnode
  exact ⟨other, hother, hres.shape_eq ▸ hunit⟩

theorem depart (h : Correlated log diagnostics tree left plain state)
    (hid : departure.id < tree.size) (hreached : Reached log tree left plain state)
    (hdepart : Attribution.depart (plain, state) departure = some (plain', state')) :
    Correlated log diagnostics tree (left ++ [departure]) plain' state' := by
  obtain ⟨node, hnode⟩ := Tree.node?_of_lt_size hid
  obtain ⟨node', hnode', hres⟩ := h.keeps.resembles departure.id node hnode
  obtain ⟨marked, hmarked, hrun⟩ := h.run
  have hleave := hdepart
  rw [depart_eq hnode'] at hleave
  let entered : Attribution :=
    { state with depth := departure.depth + if node'.shape = .block then 1 else 0 }
  have hserves : Serves log plain entered := hreached.serves.withDepth _
  have hnone : entered.concerns = [] := h.concerns_eq
  obtain ⟨hquiet, hoverlay⟩ := leave_overlay (diagnostics.map (Concern.after tree left))
    hreached.wellFormed hnode' hserves hnone (h.holdsUnits hmarked) rfl hleave
  have hflags : FlagsUnit departure.depth node' (diagnostics.map (Concern.after tree left)) ↔
      FlagsUnit departure.depth node (diagnostics.map (Concern.after tree left)) := by
    simp only [FlagsUnit, hres.shape_eq, hres.span_eq]
  have hsettle : settleAt departure.depth node' (diagnostics.map (Concern.after tree left)) =
      diagnostics.map (Concern.after tree (left ++ [departure])) := by
    rw [← settleAt_after hnode]
    simp only [settleAt, hres.shape_eq, hres.span_eq]
  rw [hsettle] at hoverlay
  constructor
  · exact h.keeps.trans (hreached.keeps hdepart)
  · exact hquiet
  · refine ⟨if FlagsUnit departure.depth node' (diagnostics.map (Concern.after tree left))
      then insert departure.id marked else marked, fun id => ?_, ?_⟩
    · rw [claimsFirst_append hnode, ← hmarked, ← hflags]
      split
      · next hunit => simp [hunit, eq_comm, or_comm]
      · next hnot => simp [hnot]
    · obtain ⟨flagged, hflagged, -, hshape, -⟩ := Tree.node?_markAll_of_node? marked hnode'
      rw [List.foldlM_append, hrun, Option.bind_eq_bind, Option.bind_some, List.foldlM_cons,
        overlay, depart_eq hflagged, hshape]
      exact congrArg (· >>= fun reached => some reached) hoverlay

theorem of_departures (hwf : tree.WellFormed) (hroot : ∀ id ∈ tree.root, id < tree.size)
    (diagnostics : List Diagnostic) (log : EditLog) : ∃ plain state,
      (tree.departures log).foldlM Attribution.depart (tree, .start log []) = some (plain, state) ∧
      Correlated log diagnostics tree (tree.departures log) plain state := by
  obtain ⟨plain, state, hrun, -, hend⟩ := foldlM_depart_induction
    (motive := Correlated log diagnostics tree) hwf hroot (.start tree)
    fun hsplit hreached h hdepart => h.depart (Tree.lt_size_of_mem_departures hwf hroot
      (hsplit ▸ List.mem_append_right _ List.mem_cons_self)) hreached hdepart
  exact ⟨plain, state, hrun, hend⟩

/-- What propagation with the diagnostics comes to. -/
theorem propagate_eq (h : Correlated log diagnostics tree (tree.departures log) plain state)
    (hwf : tree.WellFormed) (hroot : ∀ id ∈ tree.root, id < tree.size) : ∃ marked,
      (∀ id, id ∈ marked ↔ ClaimsFirst tree (tree.departures log) diagnostics id) ∧
      propagate tree diagnostics log = some (plain.markAll marked, diagnostics.map fun diagnostic =>
        { diagnostic with used := diagnostic.used || (tree.claimant? log diagnostic).isSome }) := by
  obtain ⟨marked, hmarked, hrun⟩ := h.run
  refine ⟨marked, hmarked, ?_⟩
  rw [propagate_eq_foldlM hwf hroot, hrun, Option.map_some, overlay, List.map_map]
  refine congrArg (fun diagnostics => some (plain.markAll marked, diagnostics)) ?_
  apply List.map_congr_left
  intro diagnostic _
  simp only [Function.comp_apply, Concern.after, Tree.claimant?, List.isSome_find?]

end Correlated
end Run

end Attribution

/-- Propagation with diagnostics marks just those as used that some node claims, and changes nothing
else about them. Its tree is the one that propagation without diagnostics gives, with those
claimants flagged that lie in no block. Other diagnostics with the same syntactic ones among them,
in whatever order, lead to the same tree. -/
theorem propagate_diagnostics {tree : Tree} (hwf : tree.WellFormed)
    (hroot : ∀ id ∈ tree.root, id < tree.size) (diagnostics : List Diagnostic) (log : EditLog) :
    ∃ plain marked, propagate tree [] log = some (plain, []) ∧
      propagate tree diagnostics log = some (plain.markAll marked, diagnostics.map fun diagnostic =>
        { diagnostic with used := diagnostic.used || (tree.claimant? log diagnostic).isSome }) ∧
      (∀ id, id ∈ marked ↔ ∃ diagnostic ∈ diagnostics, ∃ departure ∈ tree.claimant? log diagnostic,
        departure.depth = 0 ∧ departure.id = id) ∧
      (∀ departure ∈ tree.departures log, 0 < departure.depth ↔
        ∃ root, tree.root = some root ∧ tree.BlockBetween root departure.id) ∧
      ∀ others : List Diagnostic, (∀ diagnostic : Diagnostic, diagnostic.category.IsSyntactic →
          (diagnostic ∈ others ↔ diagnostic ∈ diagnostics)) →
        ∃ others', propagate tree others log = some (plain.markAll marked, others') := by
  obtain ⟨plain, state, hrun, hend⟩ :=
    Attribution.Correlated.of_departures hwf hroot diagnostics log
  obtain ⟨marked, hmarked, hpropagate⟩ := hend.propagate_eq hwf hroot
  refine ⟨plain, marked, ?_, hpropagate, hmarked,
    fun departure hd => Tree.depth_pos_iff_of_mem_departures hwf hd, fun others hothers => ?_⟩
  · rw [propagate_eq_foldlM hwf hroot, hrun, Option.map_some, hend.concerns_eq]
    rfl
  · obtain ⟨plain', state', hrun', hend'⟩ :=
      Attribution.Correlated.of_departures hwf hroot others log
    obtain ⟨rfl, rfl⟩ := Prod.mk.inj (Option.some.inj (hrun.symm.trans hrun'))
    obtain ⟨marked', hmarked', hpropagate'⟩ := hend'.propagate_eq hwf hroot
    have hsame : marked' = marked := by
      ext id
      rw [hmarked', hmarked]
      constructor
      · rintro ⟨diagnostic, hd, departure, hfirst, hclaims⟩
        have hsyntactic := (Departure.Concerns.of_mem_find? hfirst).1
        exact ⟨diagnostic, (hothers diagnostic hsyntactic).mp hd, departure, hfirst, hclaims⟩
      · rintro ⟨diagnostic, hd, departure, hfirst, hclaims⟩
        have hsyntactic := (Departure.Concerns.of_mem_find? hfirst).1
        exact ⟨diagnostic, (hothers diagnostic hsyntactic).mpr hd, departure, hfirst, hclaims⟩
    exact ⟨_, hsame ▸ hpropagate'⟩

/-- A problem in the call, one after its statement, and one that has nothing to do with syntax. -/
def callProblems : List Diagnostic :=
  [⟨.parsingError, 3, 3, "", false⟩, ⟨.unexpectedEof, 5, 5, "", false⟩,
    ⟨.typeMismatch, 5, 5, "", false⟩]

/-- The statement claims the first problem and the block the second, for which it is flagged. -/
theorem propagate_diagnostics_brokenCall : brokenCall.WellFormed ∧
    ∃ (plain : Tree) (marked : Finset NodeId), propagate brokenCall [] {} = some (plain, []) ∧
      propagate brokenCall callProblems {} = some (plain.markAll marked,
        [⟨.parsingError, 3, 3, "", true⟩, ⟨.unexpectedEof, 5, 5, "", true⟩,
          ⟨.typeMismatch, 5, 5, "", false⟩]) ∧
      plain.recoveredNodes = ∅ ∧ (plain.markAll marked).recoveredNodes = {3} := by
  have hlink : Tree.link brokenCall.nodes brokenCall.root = .ok brokenCall := by decide +kernel
  have hwf := Tree.wellFormed_of_link hlink
  obtain ⟨plain, marked, hplain, hpropagate, -⟩ := propagate_diagnostics hwf
    (Tree.root_lt_size_of_link hlink) callProblems {}
  have hused : (callProblems.map fun diagnostic => { diagnostic with
      used := diagnostic.used || (brokenCall.claimant? {} diagnostic).isSome }) =
        [⟨.parsingError, 3, 3, "", true⟩, ⟨.unexpectedEof, 5, 5, "", true⟩,
          ⟨.typeMismatch, 5, 5, "", false⟩] := by decide +kernel
  have hflags :
      (propagate brokenCall [] {}).map (fun result => result.1.recoveredNodes) = some ∅ := by
    decide +kernel
  have hflags' :
      (propagate brokenCall callProblems {}).map (fun result => result.1.recoveredNodes) =
      some {3} := by decide +kernel
  rw [hplain] at hflags
  rw [hpropagate] at hflags'
  exact ⟨hwf, plain, marked, hplain, hused ▸ hpropagate, Option.some.inj hflags,
    Option.some.inj hflags'⟩

end SyntaxRecovery
