import SyntaxRecovery.Proofs.Propagation.Departures

/-! Removed and replaced stretches on a tree whose spans nest. The nodes that hold a stretch lie one
above the other, and the walk leaves the deepest of them first. -/
namespace SyntaxRecovery

namespace Span

/-- All bytes of `inner` are bytes of `outer`. -/
def Contains (outer inner : Span) : Prop :=
  inner.stop ≤ inner.start ∨ outer.start ≤ inner.start ∧ inner.stop ≤ outer.stop

/-- The spans have no byte in common. -/
def Apart (a b : Span) : Prop := min a.stop b.stop ≤ max a.start b.start

instance (outer inner : Span) : Decidable (outer.Contains inner) :=
  inferInstanceAs (Decidable (_ ∨ _))

instance (a b : Span) : Decidable (a.Apart b) := inferInstanceAs (Decidable (_ ≤ _))

instance : Std.Symm Apart where
  symm a b h := by
    unfold Apart at h ⊢
    omega

theorem Contains.encloses {outer inner : Span} {start last : Nat} (h : outer.Contains inner)
    (hle : start ≤ last) (hinner : inner.Encloses start last) : outer.Encloses start last := by
  unfold Contains at h
  unfold Encloses at hinner ⊢
  omega

theorem Apart.not_encloses {a b : Span} {start last : Nat} (h : a.Apart b) (hle : start ≤ last)
    (ha : a.Encloses start last) : ¬ b.Encloses start last := by
  unfold Apart at h
  unfold Encloses at ha ⊢
  omega

end Span

namespace Tree
variable {tree : Tree} {log : EditLog} {id other root child parent : NodeId} {stretch : Stretch}

/-- The children of the node lie inside of it and apart from each other. -/
def NestedAt (tree : Tree) (node : Node) : Prop :=
  (∀ child ∈ node.kind.children, ∀ inner ∈ tree.node? child, node.span.Contains inner.span) ∧
    node.kind.children.Pairwise fun one other =>
      ∀ a ∈ tree.node? one, ∀ b ∈ tree.node? other, a.span.Apart b.span

instance (tree : Tree) (node : Node) : Decidable (tree.NestedAt node) :=
  inferInstanceAs (Decidable (_ ∧ _))

/-- The spans of children lie inside those of their parents, and the spans of siblings are
disjoint. -/
def Nested (tree : Tree) : Prop := ∀ id node, tree.node? id = some node → tree.NestedAt node

/-- The bytes of the stretch are bytes of the node. -/
def Covers (tree : Tree) (stretch : Stretch) (id : NodeId) : Prop :=
  ∃ node, tree.node? id = some node ∧ node.span.Encloses stretch.start stretch.last

/-- The node lies in a block of the tree, and the bytes of the stretch are bytes of the node. -/
def Holds (tree : Tree) (stretch : Stretch) (id : NodeId) : Prop :=
  tree.Covers stretch id ∧ ∃ root, tree.root = some root ∧ tree.BlockBetween root id

/-- No other node that holds the stretch lies as deep. -/
def HoldsDeepest (tree : Tree) (stretch : Stretch) (id : NodeId) : Prop :=
  tree.Holds stretch id ∧
    ∀ other, tree.Holds stretch other → (tree.ancestors other).length ≤ (tree.ancestors id).length

theorem BlockBetween.below (h : tree.BlockBetween root id) : tree.Below root id := by
  obtain ⟨block, node, -, -, htop, hbottom, -⟩ := h
  exact hbottom.trans htop

section Spans
variable (hwf : tree.WellFormed) (hnested : tree.Nested) (hle : stretch.start ≤ stretch.last)
include hwf hnested hle

theorem Covers.of_child (h : tree.Covers stretch child)
    (hparent : tree.parent? child = some parent) : tree.Covers stretch parent := by
  obtain ⟨inner, hinner, hcovers⟩ := h
  obtain ⟨outer, houter⟩ := node?_of_lt_size (hwf.parent_lt_size hparent)
  have hmem : child ∈ outer.kind.children := by
    rw [← children_of_node? houter]
    exact (hwf.linked parent child).mpr hparent
  have hcontains := (hnested parent outer houter).1 child hmem inner hinner
  exact ⟨outer, houter, hcontains.encloses hle hcovers⟩

theorem Covers.above (h : tree.Covers stretch other) (hbelow : tree.Below id other) :
    tree.Covers stretch id := by
  induction hbelow with
  | refl => exact h
  | tail _ hparent ih => exact ih.of_child hwf hnested hle hparent

/-- Of two siblings at most one has the bytes of a stretch. -/
theorem Covers.eq_of_siblings (h : tree.Covers stretch child) (ho : tree.Covers stretch other)
    (hc : tree.parent? child = some parent) (hp : tree.parent? other = some parent) :
    child = other := by
  by_contra hne
  obtain ⟨inner, hinner, hcovers⟩ := h
  obtain ⟨next, hnext, hcovers'⟩ := ho
  obtain ⟨outer, houter⟩ := node?_of_lt_size (hwf.parent_lt_size hc)
  have hmem (id : NodeId) (hid : tree.parent? id = some parent) : id ∈ outer.kind.children := by
    rw [← children_of_node? houter]
    exact (hwf.linked parent id).mpr hid
  have : Std.Symm fun one other : NodeId =>
      ∀ a ∈ tree.node? one, ∀ b ∈ tree.node? other, a.span.Apart b.span :=
    ⟨fun one other h b hb a ha => Std.Symm.symm _ _ (h a ha b hb)⟩
  have hapart := (hnested parent outer houter).2.forall (hmem child hc) (hmem other hp) hne
    inner hinner next hnext
  exact hapart.not_encloses hle hcovers hcovers'

/-- The nodes with the bytes of a stretch lie one above the other. -/
theorem Covers.total (h : tree.Covers stretch id) (ho : tree.Covers stretch other)
    (hid : tree.Below root id) (hother : tree.Below root other) :
    tree.Below id other ∨ tree.Below other id := by
  induction hid generalizing other with
  | refl => exact .inl hother
  | @tail middle top hmiddle hparent ih =>
    rcases Relation.ReflTransGen.cases_tail hother with heq | ⟨next, hnext, hparent'⟩
    · rw [← heq]
      exact .inr (.of_parent hparent hmiddle)
    · have hcovers := h.above hwf hnested hle hmiddle
      have hcovers' := ho.above hwf hnested hle hnext
      obtain rfl := hcovers.eq_of_siblings hwf hnested hle hcovers' hparent hparent'
      exact ih ho hnext

theorem Holds.total (h : tree.Holds stretch id) (ho : tree.Holds stretch other) :
    tree.Below id other ∨ tree.Below other id := by
  obtain ⟨hcovers, root, hr, hblock⟩ := h
  obtain ⟨hcovers', root', hr', hblock'⟩ := ho
  obtain rfl := Option.some.inj (hr.symm.trans hr')
  exact hcovers.total hwf hnested hle hcovers' hblock.below hblock'.below

end Spans

theorem length_ancestors_le (hwf : tree.WellFormed) (h : tree.Below id other) :
    (tree.ancestors id).length ≤ (tree.ancestors other).length := by
  induction h using Relation.ReflTransGen.head_induction_on with
  | refl => exact Nat.le_refl _
  | head hparent _ ih =>
    rw [hwf.ancestors_of_parent? hparent, List.length_cons]
    omega

theorem eq_of_length_ancestors_le (hwf : tree.WellFormed) (h : tree.Below id other)
    (hle : (tree.ancestors other).length ≤ (tree.ancestors id).length) : other = id := by
  rcases Relation.ReflTransGen.cases_head h with heq | ⟨parent, hparent, hrest⟩
  · exact heq
  · have := length_ancestors_le hwf hrest
    rw [hwf.ancestors_of_parent? hparent, List.length_cons] at hle
    omega

end Tree

namespace Departure
variable {tree : Tree} {log : EditLog} {stretch : Stretch} {departure : Departure} {id : NodeId}

/-- The node may claim the stretch when it is left. -/
def Claims (tree : Tree) (stretch : Stretch) (departure : Departure) : Prop :=
  0 < departure.depth ∧ ∃ node ∈ tree.node? departure.id,
    node.span.Encloses stretch.start stretch.last

instance (tree : Tree) (stretch : Stretch) : DecidablePred (Claims tree stretch) :=
  fun _ => inferInstanceAs (Decidable (_ ∧ _))

/-- The first node left that may claim the stretch. -/
def claimant? (tree : Tree) (log : EditLog) (stretch : Stretch) : Option Departure :=
  (tree.departures log).find? (Claims tree stretch ·)

theorem touches_of_mem_ofLog (hstretch : stretch ∈ Stretch.ofLog log) {span : Span}
    (h : span.Encloses stretch.start stretch.last) : log.Touches span :=
  EditLog.touches_iff_ofLog.mpr (.inr ⟨stretch.range, List.mem_map_of_mem hstretch, h⟩)

theorem Claims.holds (hwf : tree.WellFormed) (h : departure.Claims tree stretch)
    (hmem : departure ∈ tree.departures log) : tree.Holds stretch departure.id := by
  obtain ⟨hdepth, node, hnode, hcovers⟩ := h
  have hblock := (Tree.depth_pos_iff_of_mem_departures hwf hmem).mp hdepth
  exact ⟨⟨node, hnode, hcovers⟩, hblock⟩

section Nested
variable (hwf : tree.WellFormed) (hroot : ∀ id ∈ tree.root, id < tree.size) (hnested : tree.Nested)
  (hle : stretch.start ≤ stretch.last) (hstretch : stretch ∈ Stretch.ofLog log)
include hwf hroot hnested hle hstretch

/-- The walk does not pass over a node that holds a stretch. -/
theorem exists_claims (h : tree.Holds stretch id) :
    ∃ departure ∈ tree.departures log, departure.id = id ∧ departure.Claims tree stretch := by
  obtain ⟨hcovers, root, hr, hblock⟩ := h
  have hfits : tree.Fits (tree.size + 1) root := hwf.fits (by omega)
  have htouched (above : NodeId) (node : Node) (_ : tree.Below root above)
      (habove : tree.Below above id) (_ : id ≠ above) (hnode : tree.node? above = some node) :
      log.Touches node.span := by
    obtain ⟨node', hnode', hencloses⟩ := hcovers.above hwf hnested hle habove
    obtain rfl := Option.some.inj (hnode.symm.trans hnode')
    exact touches_of_mem_ofLog hstretch hencloses
  obtain ⟨departure, hmem, hid⟩ : ∃ departure ∈ tree.departuresFrom log (tree.size + 1) 0 root,
      departure.id = id :=
    Tree.exists_mem_departuresFrom hwf (hroot root hr) hfits hblock.below htouched
  rw [← hid] at hcovers hblock
  have hdepth := (Tree.depth_pos_iff_of_mem_departuresFrom hwf hmem).mpr (.inr hblock)
  rw [← Tree.departures_of_root hr] at hmem
  exact ⟨departure, hmem, hid, hdepth, hcovers⟩

/-- Of the nodes that hold a stretch, the deepest claims it. -/
theorem holdsDeepest_of_claimant? (h : claimant? tree log stretch = some departure) :
    tree.HoldsDeepest stretch departure.id := by
  obtain ⟨hclaims, before, after, hsplit, hbefore⟩ := List.find?_eq_some_iff_append.mp h
  replace hclaims := of_decide_eq_true hclaims
  have hmem : departure ∈ tree.departures log :=
    hsplit ▸ List.mem_append_right _ List.mem_cons_self
  have hholds := hclaims.holds hwf hmem
  refine ⟨hholds, fun other ho => ?_⟩
  obtain ⟨last, hlast, rfl, hclaims'⟩ := exists_claims hwf hroot hnested hle hstretch ho
  rw [hsplit, List.mem_append, List.mem_cons] at hlast
  rcases hlast with hlast | rfl | hlast
  · exact absurd (decide_eq_true hclaims') (by simpa using hbefore last hlast)
  · exact Nat.le_refl _
  · -- The other node is left later, so that it is not below.
    have horder := Tree.pairwise_departures hwf log
    rw [hsplit, List.pairwise_append, List.pairwise_cons] at horder
    have hnot := horder.2.1.1 last hlast
    exact Tree.length_ancestors_le hwf ((hholds.total hwf hnested hle ho).resolve_left hnot)

theorem exists_claimant? (h : tree.Holds stretch id) :
    ∃ departure, claimant? tree log stretch = some departure := by
  obtain ⟨departure, hmem, -, hclaims⟩ := exists_claims hwf hroot hnested hle hstretch h
  apply Option.isSome_iff_exists.mp
  rw [claimant?, List.find?_isSome]
  exact ⟨departure, hmem, decide_eq_true hclaims⟩

omit hroot hstretch in
theorem holdsDeepest_unique {other : NodeId} (h : tree.HoldsDeepest stretch id)
    (ho : tree.HoldsDeepest stretch other) : id = other := by
  rcases h.1.total hwf hnested hle ho.1 with hup | hup
  · exact (Tree.eq_of_length_ancestors_le hwf hup (h.2 other ho.1)).symm
  · exact Tree.eq_of_length_ancestors_le hwf hup (ho.2 id h.1)

theorem claimant?_iff : (∃ departure, claimant? tree log stretch = some departure ∧
    departure.id = id) ↔ tree.HoldsDeepest stretch id := by
  constructor
  · rintro ⟨departure, hclaimant, rfl⟩
    exact holdsDeepest_of_claimant? hwf hroot hnested hle hstretch hclaimant
  · intro h
    obtain ⟨departure, hclaimant⟩ := exists_claimant? hwf hroot hnested hle hstretch h.1
    have hdeepest := holdsDeepest_of_claimant? hwf hroot hnested hle hstretch hclaimant
    exact ⟨departure, hclaimant, holdsDeepest_unique hwf hnested hle hdeepest h⟩

end Nested
end Departure

/-- The stretch is claimed when one of the nodes of the list may claim it. -/
def Stretch.claimedBy (tree : Tree) (left : List Departure) (stretch : Stretch) : Stretch :=
  { stretch with claimed := left.any (Departure.Claims tree stretch ·) }

theorem Stretch.map_claimedBy_nil (tree : Tree) (log : EditLog) :
    (ofLog log).map (claimedBy tree []) = ofLog log := by
  simp only [ofLog, List.map_append, List.map_map]
  rfl

namespace Attribution
variable {tree tree' : Tree} {log : EditLog} {state : Attribution} {id : NodeId} {node : Node}
  {marked : Finset NodeId} {left : List Departure} {departure : Departure}

/-- There is nothing but stretches to attribute. -/
structure Quiet (state : Attribution) : Prop where
  concerns_eq : state.concerns = []
  offers_eq : state.offers = []
  pending_eq : state.pending = []

namespace Quiet

theorem leaveBlock (h : Quiet state) (tree : Tree) :
    state.leaveBlock tree = some (tree, { state with depth := state.depth - 1 }) := by
  obtain ⟨concerns, offers, stretches, depth, lastStop, pending⟩ := state
  obtain rfl : pending = [] := h.pending_eq
  simp only [Attribution.leaveBlock]
  split <;> rfl

theorem leaveBody (h : Quiet state) (hid : id < tree.size) (node : Node) (marked : Finset NodeId) :
    state.leaveBody (tree.markAll marked) id node =
      some (tree.markAll (if state.claimsStretch node then insert id marked else marked),
        { state with stretches := state.stretches.map (Stretch.claim node.span) }) := by
  obtain ⟨concerns, offers, stretches, depth, lastStop, pending⟩ := state
  obtain rfl : concerns = [] := h.concerns_eq
  obtain rfl : offers = [] := h.offers_eq
  simp only [leaveBody_eq, await_eq, settle, List.isEmpty_nil, if_true, Option.bind_eq_bind,
    Option.bind_some, flagIf_markAll hid]
  rfl

theorem leaveOutline (h : Quiet state) (tree : Tree) (id : NodeId) (node : Node) :
    state.leaveOutline tree id node = some (tree, state) := by
  obtain ⟨concerns, offers, stretches, depth, lastStop, pending⟩ := state
  obtain rfl : concerns = [] := h.concerns_eq
  rw [leaveOutline_eq]
  split <;> rfl

/-- Leaving a node lets it claim stretches, and repairs nothing. -/
theorem depart (h : Quiet state) (hwf : tree.WellFormed) (hnames : tree.NamesWritten)
    (hplain : tree.AnnotationsPlain) (hnode : tree.node? departure.id = some node) :
    depart (tree.markAll marked, state) departure =
      some (tree.markAll (if 0 < departure.depth ∧ state.claimsStretch node then
          insert departure.id marked else marked),
        { state with
          depth := departure.depth
          stretches := if 0 < departure.depth then state.stretches.map (Stretch.claim node.span)
            else state.stretches
          lastStop := some node.span.stop }) := by
  obtain ⟨node', hnode', -, hshape, hspan⟩ := Tree.node?_markAll_of_node? marked hnode
  have hid := Tree.lt_size_of_node? hnode
  have hclaims : state.claimsStretch node' = state.claimsStretch node := by
    rw [claimsStretch, claimsStretch, hspan]
  let entered : Attribution :=
    { state with depth := departure.depth + if node.shape = .block then 1 else 0 }
  let inner : Attribution := { state with depth := departure.depth }
  have hquiet : Quiet entered := ⟨h.concerns_eq, h.offers_eq, h.pending_eq⟩
  have hinner : Quiet inner := ⟨h.concerns_eq, h.offers_eq, h.pending_eq⟩
  have hclosed : (if node.shape = .block then entered.leaveBlock (tree.markAll marked)
      else some (tree.markAll marked, entered)) = some (tree.markAll marked, inner) := by
    by_cases hblock : node.shape = .block
    · rw [if_pos hblock, hquiet.leaveBlock]
      simp only [entered, inner, if_pos hblock, Nat.add_sub_cancel]
    · simp only [if_neg hblock, entered, inner, Nat.add_zero]
  have hrepair (marked : Finset NodeId) (inBody : Bool) :
      (tree.markAll marked).repair departure.id node.shape inBody = some (tree.markAll marked) :=
    Tree.repair_markAll_of_written hwf hnames hplain hnode inBody
  rw [depart_eq hnode', leave_eq _ hnode', hshape, hclosed, Option.bind_eq_bind, Option.bind_some,
    leaveNode_eq]
  by_cases hbody : 0 < departure.depth
  · rw [if_pos hbody, if_pos (show inner.InBody from hbody), hinner.leaveBody hid, hspan]
    have hsame : inner.claimsStretch node' = state.claimsStretch node := hclaims
    simp only [Option.bind_eq_bind, Option.bind_some, hsame, hbody, true_and, hrepair]
    rfl
  · rw [if_neg hbody, if_neg (show ¬ inner.InBody from hbody), hinner.leaveOutline, hspan]
    simp only [Option.bind_eq_bind, Option.bind_some, hbody, false_and, if_false, hrepair]
    rfl

end Quiet

/-- A walk with nothing but stretches to attribute, when it has left the nodes of the list. Each
stretch has flagged the first of them that may claim it. -/
structure Settled (log : EditLog) (tree : Tree) (left : List Departure) (tree' : Tree)
    (state : Attribution) : Prop where
  quiet : Quiet state
  stretches_eq : state.stretches = (Stretch.ofLog log).map (Stretch.claimedBy tree left)
  marked : ∃ marked, tree' = tree.markAll marked ∧ ∀ id, id ∈ marked ↔
    ∃ stretch ∈ Stretch.ofLog log, ∃ departure ∈ left.find? (Departure.Claims tree stretch ·),
      departure.id = id

namespace Settled

theorem start (hinsertions : log.insertions = []) : Settled log tree [] tree (.start log []) where
  quiet := ⟨rfl, by simp [Attribution.start, Offer.ofLog, hinsertions], rfl⟩
  stretches_eq := (Stretch.map_claimedBy_nil tree log).symm
  marked := ⟨∅, Tree.markAll_empty.symm, fun id => by simp⟩

theorem claimsStretch_iff (h : Settled log tree left tree' state)
    (hnode : tree.node? departure.id = some node) (hdepth : 0 < departure.depth) :
    state.claimsStretch node = true ↔ ∃ stretch ∈ Stretch.ofLog log,
      left.find? (Departure.Claims tree stretch ·) = none ∧ departure.Claims tree stretch := by
  simp only [claimsStretch, h.stretches_eq, List.any_map, List.any_eq_true, Function.comp_apply,
    decide_eq_true_eq, Stretch.claimedBy, List.find?_eq_none, Departure.Claims, hnode, hdepth,
    Option.mem_def, Option.some.injEq, exists_eq_left', true_and, not_exists, not_and]

theorem map_claim (h : Settled log tree left tree' state)
    (hnode : tree.node? departure.id = some node) :
    (if 0 < departure.depth then state.stretches.map (Stretch.claim node.span)
      else state.stretches) =
      (Stretch.ofLog log).map (Stretch.claimedBy tree (left ++ [departure])) := by
  have hclaims (stretch : Stretch) : departure.Claims tree stretch ↔
      0 < departure.depth ∧ node.span.Encloses stretch.start stretch.last := by
    simp only [Departure.Claims, hnode, Option.mem_def, Option.some.injEq, exists_eq_left']
  rw [h.stretches_eq]
  split
  · next hdepth =>
    rw [List.map_map]
    apply List.map_congr_left
    intro stretch _
    have hsame : decide (departure.Claims tree stretch) =
        decide (node.span.Encloses stretch.start stretch.last) := by
      rw [decide_eq_decide, hclaims]
      exact and_iff_right hdepth
    simp only [Function.comp_apply, Stretch.claim, Stretch.claimedBy, List.any_append,
      List.any_cons, List.any_nil, Bool.or_false, hsame]
    rfl
  · next hdepth =>
    apply List.map_congr_left
    intro stretch _
    simp [Stretch.claimedBy, hclaims, hdepth]

theorem depart {tree'' : Tree} {state' : Attribution} (h : Settled log tree left tree' state)
    (hwf : tree.WellFormed) (hnames : tree.NamesWritten) (hplain : tree.AnnotationsPlain)
    (hid : departure.id < tree.size)
    (hdepart : Attribution.depart (tree', state) departure = some (tree'', state')) :
    Settled log tree (left ++ [departure]) tree'' state' := by
  obtain ⟨node, hnode⟩ := Tree.node?_of_lt_size hid
  obtain ⟨marked, rfl, hmarked⟩ := h.marked
  rw [h.quiet.depart hwf hnames hplain hnode] at hdepart
  obtain ⟨rfl, rfl⟩ := Prod.mk.inj (Option.some.inj hdepart)
  refine ⟨⟨h.quiet.concerns_eq, h.quiet.offers_eq, h.quiet.pending_eq⟩, h.map_claim hnode,
    _, rfl, fun other => ?_⟩
  have hfirst (stretch : Stretch) : (∃ last ∈ (left ++ [departure]).find?
      (Departure.Claims tree stretch ·), last.id = other) ↔
        (∃ last ∈ left.find? (Departure.Claims tree stretch ·), last.id = other) ∨
          left.find? (Departure.Claims tree stretch ·) = none ∧ departure.Claims tree stretch ∧
            departure.id = other := by
    rw [List.find?_append]
    cases left.find? (Departure.Claims tree stretch ·) with
    | some last => simp
    | none => by_cases hc : departure.Claims tree stretch <;> simp [hc]
  have hnew : (other ∈ if 0 < departure.depth ∧ state.claimsStretch node = true then
      insert departure.id marked else marked) ↔ other ∈ marked ∨ departure.id = other ∧
        ∃ stretch ∈ Stretch.ofLog log, left.find? (Departure.Claims tree stretch ·) = none ∧
          departure.Claims tree stretch := by
    by_cases hdepth : 0 < departure.depth
    · rw [← h.claimsStretch_iff hnode hdepth]
      by_cases hc : state.claimsStretch node = true
      · simp [hdepth, hc, eq_comm, or_comm]
      · simp [hc]
    · have hnone (stretch : Stretch) : ¬ departure.Claims tree stretch := fun hc => hdepth hc.1
      simp [hdepth, hnone]
  rw [hnew, hmarked]
  constructor
  · rintro (⟨stretch, hs, hfound⟩ | ⟨heq, stretch, hs, hnone, hclaims⟩)
    · exact ⟨stretch, hs, (hfirst stretch).mpr (.inl hfound)⟩
    · exact ⟨stretch, hs, (hfirst stretch).mpr (.inr ⟨hnone, hclaims, heq⟩)⟩
  · rintro ⟨stretch, hs, hfound⟩
    rcases (hfirst stretch).mp hfound with hfound | ⟨hnone, hclaims, heq⟩
    · exact .inl ⟨stretch, hs, hfound⟩
    · exact .inr ⟨heq, stretch, hs, hnone, hclaims⟩

end Settled
end Attribution

/-- Propagation over a tree whose spans nest, without missing names and annotations with values, for
a log of removals and replacements only, comes to an end. It flags just the nodes that lie deepest
in a block among those that hold a stretch, one for each stretch that some such node holds. -/
theorem propagate_stretches {tree : Tree} {log : EditLog} (hwf : tree.WellFormed)
    (hroot : ∀ id ∈ tree.root, id < tree.size) (hnames : tree.NamesWritten)
    (hplain : tree.AnnotationsPlain) (hnested : tree.Nested) (hinsertions : log.insertions = [])
    (hordered : ∀ stretch ∈ Stretch.ofLog log, stretch.start ≤ stretch.last) :
    ∃ marked, propagate tree [] log = some (tree.markAll marked, []) ∧
      (tree.markAll marked).recoveredNodes = tree.recoveredNodes ∪ marked ∧
      (∀ id, id ∈ marked ↔ ∃ stretch ∈ Stretch.ofLog log, tree.HoldsDeepest stretch id) ∧
      ∀ stretch ∈ Stretch.ofLog log, (∃ id, tree.Holds stretch id) →
        ∃! id, tree.HoldsDeepest stretch id := by
  obtain ⟨tree', state, hrun, -, hsettled⟩ := Attribution.foldlM_depart_induction
    (motive := Attribution.Settled log tree) hwf hroot (.start hinsertions)
    fun hsplit _ hsettled hdepart => hsettled.depart hwf hnames hplain
      (Tree.lt_size_of_mem_departures hwf hroot
        (hsplit ▸ List.mem_append_right _ List.mem_cons_self))
      hdepart
  obtain ⟨marked, rfl, hmarked⟩ := hsettled.marked
  have hdeepest (id : NodeId) : id ∈ marked ↔
      ∃ stretch ∈ Stretch.ofLog log, tree.HoldsDeepest stretch id := by
    rw [hmarked]
    apply exists_congr
    intro stretch
    apply and_congr_right
    intro hs
    exact Departure.claimant?_iff hwf hroot hnested (hordered stretch hs) hs
  refine ⟨marked, ?_, ?_, hdeepest, fun stretch hs hholds => ?_⟩
  · rw [propagate_eq_foldlM hwf hroot, hrun, Option.map_some, hsettled.quiet.concerns_eq]
    rfl
  · apply Tree.recoveredNodes_markAll
    intro id hid
    obtain ⟨stretch, -, ⟨⟨node, hnode, -⟩, -⟩, -⟩ := (hdeepest id).mp hid
    exact Tree.lt_size_of_node? hnode
  · obtain ⟨id, hid⟩ := hholds
    obtain ⟨departure, hclaimant⟩ :=
      Departure.exists_claimant? hwf hroot hnested (hordered stretch hs) hs hid
    exact ⟨departure.id,
      Departure.holdsDeepest_of_claimant? hwf hroot hnested (hordered stretch hs) hs hclaimant,
      fun other ho => Departure.holdsDeepest_unique hwf hnested (hordered stretch hs) ho
        (Departure.holdsDeepest_of_claimant? hwf hroot hnested (hordered stretch hs) hs hclaimant)⟩

/-- Removes the bracket of the call, replaces its name, and removes more than the block has. -/
def rewrittenCall : EditLog where
  replacements := [⟨.identifier, [], 2, 2, false⟩]
  removals := [⟨3, 3, false⟩, ⟨1, 8, false⟩]

/-- The call takes the bracket and its name the replacement. The long stretch belongs to no node. -/
theorem propagate_stretches_brokenCall : brokenCall.WellFormed ∧ brokenCall.Nested ∧
    ∃ marked, propagate brokenCall [] rewrittenCall = some (brokenCall.markAll marked, []) ∧
      (brokenCall.markAll marked).recoveredNodes = {0, 1} := by
  have hlink : Tree.link brokenCall.nodes brokenCall.root = .ok brokenCall := by decide +kernel
  have hnodes : ∀ node ∈ brokenCall.nodes, node.isMissingName = false ∧
      (node.shape ≠ .annotationNormal ∧ node.shape ≠ .annotationSingle) ∧
        brokenCall.NestedAt node := by decide +kernel
  have hwf : brokenCall.WellFormed := Tree.wellFormed_of_link hlink
  have hnames : brokenCall.NamesWritten := fun _ _ h => (hnodes _ (Array.mem_of_getElem? h)).1
  have hplain : brokenCall.AnnotationsPlain := fun _ _ h => (hnodes _ (Array.mem_of_getElem? h)).2.1
  have hnested : brokenCall.Nested := fun _ _ h => (hnodes _ (Array.mem_of_getElem? h)).2.2
  have hinsertions : rewrittenCall.insertions = [] := rfl
  obtain ⟨marked, hpropagate, -⟩ := propagate_stretches hwf
    (Tree.root_lt_size_of_link hlink) hnames hplain hnested hinsertions (by decide)
  have hrun : (propagate brokenCall [] rewrittenCall).map (fun result => result.1.recoveredNodes) =
      some {0, 1} := by decide +kernel
  rw [hpropagate] at hrun
  exact ⟨hwf, hnested, marked, hpropagate, Option.some.inj hrun⟩

end SyntaxRecovery
