import SyntaxRecovery.Proofs.Propagation.Marks

/-! Claims on inserted tokens, node by node. A node first claims tokens on its last byte and then
those inside of it. The tokens that nobody has claimed wait at the byte they follow. -/
namespace SyntaxRecovery

/-- The members up to the first with the property, that one included. -/
def throughFirst {α : Type} (p : α → Bool) : List α → List α
  | [] => []
  | a :: rest => if p a then [a] else a :: throughFirst p rest

theorem throughFirst_subset {α : Type} (p : α → Bool) (l : List α) : throughFirst p l ⊆ l := by
  induction l with
  | nil => exact List.Subset.refl _
  | cons a rest ih =>
    rw [throughFirst]
    split
    · exact List.cons_subset_cons a (List.nil_subset rest)
    · exact List.cons_subset_cons a ih

/-- The inserted tokens that wait at each offset, in the order in which they are offered, and the
nodes that have been flagged for a claim. -/
@[ext] structure Claims where
  waiting : Nat → List TokenKind
  flagged : Finset NodeId := ∅

namespace Claims

/-- Those of the latest insertion come first. -/
def ofLog (log : EditLog) : Claims where
  waiting offset := (log.insertions.reverse.filter (·.anchor = offset)).flatMap Insertion.tokens

/-- What a node may claim on its last byte: tokens up to the first that is among its terminators. -/
def takenAtEnd (claims : Claims) (node : Node) : List TokenKind :=
  match node.shape.terminators?, node.span.stop with
  | some expected, last + 1 => throughFirst (· ∈ expected) (claims.waiting last)
  | _, _ => []

/-- The ancestors of a node up to the first that does not end with it. -/
def around (tree : Tree) (id stop : Nat) : Finset NodeId :=
  (throughFirst (fun ancestor => (tree.node? ancestor).all (·.span.stop ≠ stop))
    (tree.ancestors id)).toFinset

/-- A node that claims tokens on its last byte is flagged. One among them that is no terminator of
the node flags the nodes around it too. -/
def flagsAtEnd (tree : Tree) (id : NodeId) (node : Node) (taken : List TokenKind) : Finset NodeId :=
  (if taken = [] then ∅ else {id}) ∪
    if ∀ kind ∈ taken, kind ∈ node.shape.terminators?.getD [] then ∅
    else around tree id node.span.stop

/-- A node claims tokens on its last byte. -/
def atEnd (tree : Tree) (claims : Claims) (id : NodeId) : Claims :=
  match tree.node? id with
  | none => claims
  | some node =>
    let taken := claims.takenAtEnd node
    { waiting := fun offset =>
        if offset + 1 = node.span.stop then (claims.waiting offset).drop taken.length
        else claims.waiting offset
      flagged := claims.flagged ∪ flagsAtEnd tree id node taken }

/-- A node claims the tokens inside of it, before its last byte. -/
def inside (tree : Tree) (claims : Claims) (id : NodeId) : Claims :=
  match tree.node? id with
  | none => claims
  | some node =>
    { waiting := fun offset =>
        if node.span.start ≤ offset ∧ offset + 1 < node.span.stop then [] else claims.waiting offset
      flagged := claims.flagged ∪
        if ∃ offset < node.span.stop - 1, node.span.start ≤ offset ∧ claims.waiting offset ≠ []
        then {id} else ∅ }

/-- Both claims of a node. -/
def claim (tree : Tree) (claims : Claims) (id : NodeId) : Claims :=
  (claims.atEnd tree id).inside tree id

/-- What waits at an offset while some offers are open. -/
def waitingOf (offers : List Offer) (offset : Nat) : List TokenKind :=
  (offers.filter fun offer => ¬ offer.claimed ∧ offer.offset = offset).map (·.kind)

theorem waitingOf_cons (offer : Offer) (offers : List Offer) (offset : Nat) :
    waitingOf (offer :: offers) offset =
      (if offer.claimed = false ∧ offer.offset = offset then [offer.kind] else []) ++
        waitingOf offers offset := by
  by_cases h : offer.claimed = false ∧ offer.offset = offset
  · simp [waitingOf, h]
  · rw [if_neg h, waitingOf, List.filter_cons_of_neg (by simpa using h)]
    rfl

theorem waitingOf_append (offers others : List Offer) (offset : Nat) :
    waitingOf (offers ++ others) offset = waitingOf offers offset ++ waitingOf others offset := by
  simp [waitingOf]

theorem waitingOf_ofLog (log : EditLog) : waitingOf (Offer.ofLog log) = (ofLog log).waiting := by
  funext offset
  have hedit (anchor : Nat) (kinds : List TokenKind) :
      waitingOf (kinds.map fun kind => { kind, offset := anchor }) offset =
        if anchor = offset then kinds else [] := by
    by_cases h : anchor = offset <;> simp [waitingOf, h, List.filter_map, Function.comp_def]
  unfold Offer.ofLog ofLog
  dsimp only
  induction log.insertions.reverse with
  | nil => rfl
  | cons edit rest ih =>
    rw [List.flatMap_cons, waitingOf_append, ih, hedit]
    by_cases h : edit.anchor = offset <;> simp [h]

/-- What the offers on the last byte of a span are. -/
def waitingAtEnd (span : Span) (offers : List Offer) : List TokenKind :=
  (offers.filter fun offer => ¬ offer.claimed ∧ offer.IsAtEnd span).map (·.kind)

theorem claimAtEnd_spec (expected : List TokenKind) (span : Span) (offers : List Offer) :
    let taken := throughFirst (· ∈ expected) (waitingAtEnd span offers)
    let claim := Offer.claimAtEnd expected span offers
    (claim.own = true ↔ ∃ kind ∈ taken, kind ∈ expected) ∧
      (claim.foreign = true ↔ ∃ kind ∈ taken, kind ∉ expected) ∧
      ∀ offset, waitingOf claim.offers offset =
        if offset + 1 = span.stop then (waitingOf offers offset).drop taken.length
        else waitingOf offers offset := by
  induction offers with
  | nil => simp [waitingAtEnd, throughFirst, Offer.claimAtEnd, waitingOf]
  | cons offer offers ih =>
    obtain ⟨hown, hforeign, hwaiting⟩ := ih
    by_cases h : offer.claimed ∨ ¬ offer.IsAtEnd span
    · have hskip : waitingAtEnd span (offer :: offers) = waitingAtEnd span offers := by
        rw [waitingAtEnd, List.filter_cons_of_neg]
        · rfl
        · rcases h with h | h <;> simp [h]
      simp only [hskip, Offer.claimAtEnd, if_pos h]
      refine ⟨hown, hforeign, fun offset => ?_⟩
      rw [waitingOf_cons, waitingOf_cons, hwaiting]
      by_cases hoffset : offset + 1 = span.stop
      · have hnot : ¬ (offer.claimed = false ∧ offer.offset = offset) := by
          rintro ⟨hc, heq⟩
          rcases h with h | h
          · simp [hc] at h
          · exact h ((congrArg (· + 1) heq).trans hoffset)
        simp [hoffset, hnot]
      · simp [hoffset]
    · obtain ⟨hc, hend⟩ : offer.claimed = false ∧ offer.IsAtEnd span := by simpa using h
      have htake :
          waitingAtEnd span (offer :: offers) = offer.kind :: waitingAtEnd span offers := by
        simp [waitingAtEnd, hc, hend]
      have hcons (offset : Nat) : waitingOf (offer :: offers) offset =
          if offset + 1 = span.stop then offer.kind :: waitingOf offers offset
          else waitingOf offers offset := by
        have hiff : offer.offset = offset ↔ offset + 1 = span.stop := by
          have : offer.offset + 1 = span.stop := hend
          omega
        rw [waitingOf_cons]
        simp only [hc, true_and, hiff]
        split <;> rfl
      simp only [htake, Offer.claimAtEnd, if_neg h, throughFirst, decide_eq_true_eq]
      by_cases hk : offer.kind ∈ expected
      · simp only [if_pos hk]
        refine ⟨by simp [hk], by simp [hk], fun offset => ?_⟩
        rw [hcons, waitingOf_cons]
        simp only [Bool.true_eq_false, false_and, if_false, List.nil_append, List.length_singleton]
        split <;> rfl
      · simp only [if_neg hk]
        refine ⟨by simp [hk, hown], by simp [hk], fun offset => ?_⟩
        rw [hcons, waitingOf_cons, hwaiting]
        simp only [Bool.true_eq_false, false_and, if_false, List.nil_append, List.length_cons]
        split <;> rfl

theorem takenAtEnd_eq {node : Node} {expected : List TokenKind} {claims : Claims}
    {offers : List Offer}
    (hw : claims.waiting = waitingOf offers) (he : node.shape.terminators? = some expected) :
    claims.takenAtEnd node = throughFirst (· ∈ expected) (waitingAtEnd node.span offers) := by
  unfold takenAtEnd
  rw [he]
  cases hs : node.span.stop with
  | zero => simp [waitingAtEnd, Offer.IsAtEnd, hs, throughFirst]
  | succ last => simp [hw, waitingOf, waitingAtEnd, Offer.IsAtEnd, hs]

theorem waitingOf_claimInside (span : Span) (offers : List Offer) (offset : Nat) :
    waitingOf (offers.map (Offer.claimInside span)) offset =
      if span.start ≤ offset ∧ offset + 1 < span.stop then [] else waitingOf offers offset := by
  induction offers with
  | nil => simp [waitingOf]
  | cons offer offers ih =>
    rw [List.map_cons, waitingOf_cons, waitingOf_cons, ih]
    by_cases hoffset : offer.offset = offset
    · subst hoffset
      by_cases hspan : span.start ≤ offer.offset ∧ offer.offset + 1 < span.stop
      · simp [Offer.claimInside, Offer.IsInside, hspan]
      · simp [Offer.claimInside, Offer.IsInside, hspan]
    · simp [Offer.claimInside, hoffset]

theorem exists_waiting_inside_iff (span : Span) (offers : List Offer) :
    (∃ offset < span.stop - 1, span.start ≤ offset ∧ waitingOf offers offset ≠ []) ↔
      ∃ offer ∈ offers, offer.claimed = false ∧ offer.IsInside span := by
  simp only [waitingOf, ne_eq, List.map_eq_nil_iff, List.filter_eq_nil_iff, not_forall,
    decide_eq_true_eq, not_not, exists_prop, Offer.IsInside]
  constructor
  · rintro ⟨offset, hstop, hstart, offer, ho, hc, rfl⟩
    exact ⟨offer, ho, by simpa using hc, hstart, by omega⟩
  · rintro ⟨offer, ho, hc, hstart, hstop⟩
    exact ⟨offer.offset, by omega, hstart, offer, ho, by simp [hc], rfl⟩

theorem map_offset_claimAtEnd (expected : List TokenKind) (span : Span) (offers : List Offer) :
    (Offer.claimAtEnd expected span offers).offers.map (·.offset) = offers.map (·.offset) := by
  induction offers with
  | nil => rfl
  | cons offer offers ih =>
    unfold Offer.claimAtEnd
    split
    · simp [ih]
    · dsimp only
      split
      · rfl
      · simp [ih]

/-- What has been reached on a tree with offers at some offsets, seen as claims. -/
structure Tracks (tree : Tree) (offsets : List Nat) (claims : Claims)
    (reached : Tree × List Offer) : Prop where
  tree_eq : reached.1 = tree.markAll claims.flagged
  waiting_eq : claims.waiting = waitingOf reached.2
  offsets_eq : reached.2.map (·.offset) = offsets

variable {tree : Tree} {offsets : List Nat} {claims : Claims} {reached : Tree × List Offer}
    {id : NodeId}

theorem upToOtherEnd_markAll (marked : Finset NodeId) (stop : Nat) {chain : List NodeId}
    (hchain : ∀ id ∈ chain, id < tree.size) : (tree.markAll marked).upToOtherEnd stop chain =
      some (throughFirst (fun id => (tree.node? id).all (·.span.stop ≠ stop)) chain) := by
  induction chain with
  | nil => rfl
  | cons id rest ih =>
    obtain ⟨hid, hrest⟩ := List.forall_mem_cons.mp hchain
    obtain ⟨node, hnode⟩ := Tree.node?_of_lt_size hid
    obtain ⟨other, hother, -, -, hspan⟩ := Tree.node?_markAll_of_node? marked hnode
    by_cases hstop : node.span.stop = stop
    · simp [Tree.upToOtherEnd, hother, hspan, hstop, ih hrest, throughFirst, hnode]
    · simp [Tree.upToOtherEnd, hother, hspan, hstop, throughFirst, hnode]

theorem mem_around_lt (hwf : tree.WellFormed) (id stop : Nat) :
    ∀ other ∈ throughFirst (fun ancestor => (tree.node? ancestor).all (·.span.stop ≠ stop))
      (tree.ancestors id), other < tree.size :=
  fun other ho => hwf.ancestors_lt_size other (throughFirst_subset _ _ ho)

/-- The flags that a node sets for the tokens on its last byte. -/
theorem claimAtEnd_markAll {expected : List TokenKind} {node : Node} (hwf : tree.WellFormed)
    (hnode : tree.node? id = some node) (he : node.shape.terminators? = some expected)
    (marked : Finset NodeId) (offers : List Offer) :
    let claim := Offer.claimAtEnd expected node.span offers
    Tree.claimAtEnd (tree.markAll marked, offers) id = some (tree.markAll (marked ∪
      (if claim.own = true then {id} else ∅) ∪
        if claim.foreign = true then insert id (around tree id node.span.stop) else ∅),
      claim.offers) := by
  intro claim
  have hid := Tree.lt_size_of_node? hnode
  obtain ⟨other, hother, -, hshape, hspan⟩ := Tree.node?_markAll_of_node? marked hnode
  have hchain : ∀ other ∈ tree.ancestors id, other < tree.size := hwf.ancestors_lt_size
  have haround := mem_around_lt hwf id node.span.stop
  have hfold (marked : Finset NodeId) : (id :: throughFirst (fun ancestor =>
      (tree.node? ancestor).all (·.span.stop ≠ node.span.stop)) (tree.ancestors id)).foldlM
        Tree.flagRecovered (tree.markAll marked) =
      some (tree.markAll (marked ∪ insert id (around tree id node.span.stop))) := by
    rw [Tree.foldlM_flagRecovered (List.forall_mem_cons.mpr ⟨hid, haround⟩), List.toFinset_cons]
    rfl
  have hcompute : Tree.claimAtEnd (tree.markAll marked, offers) id =
      (if claim.own = true then (tree.markAll marked).flagRecovered id
        else some (tree.markAll marked)) >>= fun flagged =>
      if claim.foreign = true then flagged.upToOtherEnd node.span.stop (flagged.ancestors id) >>=
        fun around => (id :: around).foldlM Tree.flagRecovered flagged >>= fun flagged =>
          some (flagged, claim.offers)
      else some (flagged, claim.offers) := by
    simp only [Tree.claimAtEnd, Option.bind_eq_bind, hother, Option.bind_some, hshape, he, hspan]
    change (if claim.own = true then _ else _) =
      (if claim.own = true then _ else _ : Option _).bind _
    split <;> rfl
  have hown : (if claim.own = true then (tree.markAll marked).flagRecovered id
      else some (tree.markAll marked)) =
        some (tree.markAll (marked ∪ if claim.own = true then {id} else ∅)) := by
    split
    · rw [Tree.flagRecovered_markAll hid, Finset.union_comm, Finset.insert_eq]
    · rw [Finset.union_empty]
  rw [hcompute, hown, Option.bind_eq_bind, Option.bind_some]
  split
  · rw [Tree.ancestors_markAll, upToOtherEnd_markAll _ _ hchain, Option.bind_eq_bind,
      Option.bind_some, hfold]
    rfl
  · rw [Finset.union_empty]

theorem Tracks.atEnd (h : Tracks tree offsets claims reached) (hwf : tree.WellFormed)
    (hid : id < tree.size) :
    ∃ next, Tree.claimAtEnd reached id = some next ∧
      Tracks tree offsets (claims.atEnd tree id) next := by
  obtain ⟨tree', offers⟩ := reached
  obtain ⟨rfl, hw⟩ : tree' = tree.markAll claims.flagged ∧ claims.waiting = waitingOf offers :=
    ⟨h.tree_eq, h.waiting_eq⟩
  obtain ⟨node, hnode⟩ := Tree.node?_of_lt_size hid
  obtain ⟨other, hother, -, hshape, hspan⟩ := Tree.node?_markAll_of_node? claims.flagged hnode
  cases he : node.shape.terminators? with
  | none =>
    have htaken : claims.takenAtEnd node = [] := by simp [takenAtEnd, he]
    have hclaim : Tree.claimAtEnd (tree.markAll claims.flagged, offers) id =
        some (tree.markAll claims.flagged, offers) := by
      simp only [Tree.claimAtEnd, Option.bind_eq_bind, hother, Option.bind_some, hshape, he]
      rfl
    refine ⟨_, hclaim, ?_, ?_, h.offsets_eq⟩
    · simp [Claims.atEnd, hnode, htaken, flagsAtEnd]
    · simp only [Claims.atEnd, hnode, htaken, List.length_nil, List.drop_zero, ite_self]
      exact hw
  | some expected =>
    have htaken := takenAtEnd_eq hw he
    obtain ⟨hown, hforeign, hwaiting⟩ := claimAtEnd_spec expected node.span offers
    rw [← htaken] at hown hforeign hwaiting
    have hnil : claims.takenAtEnd node = [] ↔
        ¬ ((Offer.claimAtEnd expected node.span offers).own = true) ∧
          ¬ ((Offer.claimAtEnd expected node.span offers).foreign = true) := by
      rw [hown, hforeign, List.eq_nil_iff_forall_not_mem]
      constructor
      · exact fun h => ⟨fun ⟨kind, hk, _⟩ => h kind hk, fun ⟨kind, hk, _⟩ => h kind hk⟩
      · intro h kind hk
        by_cases hkind : kind ∈ expected
        · exact h.1 ⟨kind, hk, hkind⟩
        · exact h.2 ⟨kind, hk, hkind⟩
    have hall : (∀ kind ∈ claims.takenAtEnd node, kind ∈ expected) ↔
        ¬ ((Offer.claimAtEnd expected node.span offers).foreign = true) := by
      rw [hforeign]
      simp
    refine ⟨_, claimAtEnd_markAll hwf hnode he _ _, ?_, ?_,
      (map_offset_claimAtEnd _ _ _).trans h.offsets_eq⟩
    · simp only [Claims.atEnd, flagsAtEnd, hnode, he, Option.getD_some, hnil, hall]
      congr 1
      ext other
      by_cases ho : (Offer.claimAtEnd expected node.span offers).own = true <;>
        by_cases hf : (Offer.claimAtEnd expected node.span offers).foreign = true <;>
          simp [ho, hf]
    · funext offset
      simp only [Claims.atEnd, hnode, hwaiting, hw]

theorem Tracks.inside (h : Tracks tree offsets claims reached) (hid : id < tree.size) :
    ∃ next, Tree.claimInside reached id = some next ∧
      Tracks tree offsets (claims.inside tree id) next := by
  obtain ⟨tree', offers⟩ := reached
  obtain ⟨rfl, hw⟩ : tree' = tree.markAll claims.flagged ∧ claims.waiting = waitingOf offers :=
    ⟨h.tree_eq, h.waiting_eq⟩
  obtain ⟨node, hnode⟩ := Tree.node?_of_lt_size hid
  obtain ⟨other, hother, -, -, hspan⟩ := Tree.node?_markAll_of_node? claims.flagged hnode
  have hwaiting : (claims.inside tree id).waiting =
      waitingOf (offers.map (Offer.claimInside node.span)) := by
    funext offset
    rw [waitingOf_claimInside]
    simp only [Claims.inside, hnode, hw]
  have hany : (offers.any fun offer => ¬ offer.claimed ∧ offer.IsInside node.span) = true ↔
      ∃ offset < node.span.stop - 1, node.span.start ≤ offset ∧ claims.waiting offset ≠ [] := by
    rw [hw, exists_waiting_inside_iff]
    simp
  by_cases hclaims : ∃ offset < node.span.stop - 1, node.span.start ≤ offset ∧
      claims.waiting offset ≠ []
  · refine ⟨(tree.markAll (insert id claims.flagged), offers.map (Offer.claimInside node.span)),
      ?_, ?_, hwaiting, ?_⟩
    · simp only [Tree.claimInside, Option.bind_eq_bind, hother, Option.bind_some, hspan]
      rw [if_pos (hany.mpr hclaims), Tree.flagRecovered_markAll hid]
      rfl
    · simp only [Claims.inside, hnode, if_pos hclaims]
      rw [Finset.union_comm, ← Finset.insert_eq]
    · rw [← h.offsets_eq, List.map_map]
      rfl
  · refine ⟨(tree.markAll claims.flagged, offers), ?_, ?_, ?_, h.offsets_eq⟩
    · simp only [Tree.claimInside, Option.bind_eq_bind, hother, Option.bind_some, hspan]
      rw [if_neg (mt hany.mp hclaims)]
      rfl
    · simp only [Claims.inside, hnode, if_neg hclaims, Finset.union_empty]
    · funext offset
      simp only [Claims.inside, hnode, ← hw]
      split
      · next hoffset =>
        by_contra hne
        exact hclaims ⟨offset, by omega, hoffset.1, Ne.symm hne⟩
      · rfl

/-- A list of nodes that claim one after the other. -/
theorem Tracks.foldlM (step : Tree × List Offer → NodeId → Option (Tree × List Offer))
    (claimStep : Claims → NodeId → Claims)
    (hstep : ∀ {claims reached id}, Tracks tree offsets claims reached → id < tree.size →
      ∃ next, step reached id = some next ∧ Tracks tree offsets (claimStep claims id) next)
    {ids : List NodeId} (h : Tracks tree offsets claims reached)
    (hids : ∀ id ∈ ids, id < tree.size) : ∃ next, ids.foldlM step reached = some next ∧
      Tracks tree offsets (ids.foldl claimStep claims) next := by
  induction ids generalizing claims reached with
  | nil => exact ⟨reached, rfl, h⟩
  | cons id ids ih =>
    obtain ⟨hid, hids⟩ := List.forall_mem_cons.mp hids
    obtain ⟨middle, hmiddle, htracks⟩ := hstep h hid
    obtain ⟨next, hnext, htracks⟩ := ih htracks hids
    exact ⟨next, by rw [List.foldlM_cons, hmiddle]; exact hnext, htracks⟩

/-- The pending nodes claim what is on their last bytes, and then what is inside of them. -/
theorem Tracks.flush {tree' : Tree} {state : Attribution}
    (h : Tracks tree offsets claims (tree', state.offers)) (hwf : tree.WellFormed)
    (hpending : ∀ id ∈ state.pending, id < tree.size) : ∃ tree'' offers,
      state.flush tree' = some (tree'', { state with offers, pending := [] }) ∧
      Tracks tree offsets (state.pending.reverse.foldl (Claims.inside tree)
        (state.pending.reverse.foldl (Claims.atEnd tree) claims)) (tree'', offers) := by
  have hrun : ∀ id ∈ state.pending.reverse, id < tree.size :=
    fun id hid => hpending id (List.mem_reverse.mp hid)
  obtain ⟨reached, hreached, htracks⟩ := Tracks.foldlM Tree.claimAtEnd (Claims.atEnd tree)
    (fun h hid => h.atEnd hwf hid) h hrun
  obtain ⟨⟨tree'', offers⟩, hnext, htracks⟩ := Tracks.foldlM Tree.claimInside (Claims.inside tree)
    (fun h hid => h.inside hid) htracks hrun
  refine ⟨tree'', offers, ?_, htracks⟩
  simp only [Attribution.flush, hreached, Option.bind_eq_bind, Option.bind_some, hnext]
  rfl

end Claims
end SyntaxRecovery
