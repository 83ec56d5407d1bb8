import SyntaxRecovery.Proofs.Stream.Recording
import SyntaxRecovery.Proofs.Stream.Repetition
import SyntaxRecovery.Proofs.Stream.Replay

/-! How the tokens inserted at one place are divided among insertions makes no difference to the
corrected stream. Two streams at one place go on alike where the tokens that they hand out before
they read on are the same. -/
namespace SyntaxRecovery

namespace EditLog
variable {log other : EditLog}

/-- The logs differ at most in how the tokens inserted at a place are divided among insertions, and
in what has been consumed. -/
structure Regroups (log other : EditLog) : Prop where
  inserted_eq : ∀ place, other.insertedAt place = log.insertedAt place
  replacements_eq : other.resetConsumed.replacements = log.resetConsumed.replacements
  removals_eq : other.resetConsumed.removals = log.resetConsumed.removals

theorem insertedFrom_resetConsumed (log : EditLog) (lowest place : Nat) :
    log.resetConsumed.insertedFrom lowest place = log.insertedFrom lowest place := by
  simp only [insertedFrom, insertedAt, resetConsumed, ← List.map_drop, List.filter_map,
    List.flatMap_map]
  rfl

theorem insertedFrom_congr (h : other.resetConsumed = log.resetConsumed) (lowest place : Nat) :
    other.insertedFrom lowest place = log.insertedFrom lowest place := by
  rw [← insertedFrom_resetConsumed, h, insertedFrom_resetConsumed]

theorem insertedFrom_of_due {edit : Insertion} {place lowest index : Nat}
    (h : log.insertionDue? place lowest = some (edit, index)) : log.insertedFrom lowest place =
      edit.tokens.map (Token.synthetic · (.emptyAt place) .inserted) ++
        log.insertedFrom (index + 1) place := by
  obtain ⟨hedit, hanchor, hle⟩ := insertionDue?_some h
  apply insertedFrom_of_first hle hedit hanchor
  intro i other hi ho hl
  exact insertionDue?_first h hi ho hl

theorem insertedFrom_of_none {place lowest : Nat} (h : log.insertionDue? place lowest = none) :
    log.insertedFrom lowest place = [] := by
  apply insertedFrom_of_done
  intro i edit hedit hle
  exact insertionDue?_none h hedit hle

namespace Regroups
variable {log' other' : EditLog} {previous index : Nat} {span : Span}

theorem congr (h : log.Regroups other) (hlog : log'.resetConsumed = log.resetConsumed)
    (hother : other'.resetConsumed = other.resetConsumed) : log'.Regroups other' where
  inserted_eq place := by
    have hinserted := h.inserted_eq place
    rw [← insertedFrom_zero, ← insertedFrom_zero] at hinserted ⊢
    rw [insertedFrom_congr hlog, insertedFrom_congr hother, hinserted]
  replacements_eq := by rw [hlog, hother, h.replacements_eq]
  removals_eq := by rw [hlog, hother, h.removals_eq]

theorem replacementCovering?_some (h : log.Regroups other) {edit : Replacement}
    (hp : log.replacementCovering? previous span = some (edit, index)) :
    ∃ found, other.replacementCovering? previous span = some (found, index) ∧
      found.first = edit.first ∧ found.others = edit.others ∧ found.last = edit.last := by
  obtain ⟨found, hfound, heq⟩ :=
    find?_zipIdx_same_some h.replacements_eq (fun _ _ => rfl) hp
  obtain ⟨hfirst, hothers, -, hlast, -⟩ := Replacement.mk.inj heq
  exact ⟨found, hfound, hfirst, hothers, hlast⟩

theorem replacementCovering?_none (h : log.Regroups other)
    (hp : log.replacementCovering? previous span = none) :
    other.replacementCovering? previous span = none :=
  find?_zipIdx_same_none h.replacements_eq (fun _ _ => rfl) hp

theorem removalCovering?_some (h : log.Regroups other) {edit : Removal}
    (hm : log.removalCovering? previous span = some (edit, index)) :
    ∃ found, other.removalCovering? previous span = some (found, index) ∧
      found.start = edit.start ∧ found.last = edit.last := by
  obtain ⟨found, hfound, heq⟩ := find?_zipIdx_same_some h.removals_eq (fun _ _ => rfl) hm
  obtain ⟨hstart, hlast, -⟩ := Removal.mk.inj heq
  exact ⟨found, hfound, hstart, hlast⟩

theorem removalCovering?_none (h : log.Regroups other)
    (hm : log.removalCovering? previous span = none) :
    other.removalCovering? previous span = none :=
  find?_zipIdx_same_none h.removals_eq (fun _ _ => rfl) hm

end Regroups
end EditLog

namespace CorrectedStream
variable {s s' t t' : CorrectedStream} {r : Bool} {edits : List Application} {first : Token}
  {rest : List Token} {answer : Except StreamFailure Token}

/-- The tokens of an edit that it still has to hand out. -/
def pendingTokens (s : CorrectedStream) : List Token :=
  s.pending.map (Token.synthetic · (.emptyAt s.pendingOffset) s.pendingOrigin)

/-- The synthetic tokens that the stream hands out before it reads on. -/
def upcoming (s : CorrectedStream) : List Token :=
  s.pendingTokens ++ s.log.insertedFrom s.insertFrom s.position

theorem pendingTokens_of_nil (hp : s.pending = []) : s.pendingTokens = [] := by
  rw [pendingTokens, hp]
  rfl

theorem upcoming_of_nil (hp : s.pending = []) :
    s.upcoming = s.log.insertedFrom s.insertFrom s.position := by
  rw [upcoming, pendingTokens_of_nil hp]
  rfl

/-- With nothing ahead, the next call reads on. -/
theorem upcoming_eq_nil_iff : s.upcoming = [] ↔
    s.pending = [] ∧ s.log.insertionDue? s.position s.insertFrom = none := by
  constructor
  · intro h
    obtain ⟨hpending, hinserted⟩ := List.append_eq_nil_iff.mp h
    refine ⟨List.map_eq_nil_iff.mp hpending, ?_⟩
    cases hd : s.log.insertionDue? s.position s.insertFrom with
    | none => rfl
    | some due =>
      rw [EditLog.insertedFrom_of_due hd] at hinserted
      cases hinserted
  · rintro ⟨hp, hd⟩
    rw [upcoming_of_nil hp, EditLog.insertedFrom_of_none hd]

/-- From `s` the stream has gone on to `t` without reading, and still hands out `rest` at the
place. -/
structure HandsOut (s : CorrectedStream) (rest : List Token) (t : CorrectedStream) : Prop where
  scanner_eq : t.scanner = s.scanner
  floor_eq : t.resumeFloor = s.resumeFloor
  upcoming_eq : t.upcoming = rest
  edits_eq : t.log.resetConsumed = s.log.resetConsumed
  fewer : t.insertionsAhead < s.insertionsAhead ∨
    t.insertionsAhead = s.insertionsAhead ∧ t.pending.length < s.pending.length

/-- A call that hands out the first token of `s.upcoming` stays where it is. -/
theorem HandsOut.ahead_eq (h : s.HandsOut rest t) (size : Nat) : t.ahead size = s.ahead size := by
  unfold ahead editFloor position
  rw [h.scanner_eq, h.floor_eq]

theorem HandsOut.progress (h : s.HandsOut rest t) (size : Nat) : Progress size s t :=
  .inr ⟨h.ahead_eq size, h.fewer⟩

/-- An insertion that is due gives its first token, and has the others ahead. -/
theorem handsOut_insertion {edit : Insertion} {index : Nat} (hp : s.pending = [])
    (hd : s.log.insertionDue? s.position s.insertFrom = some (edit, index)) (r : Bool) :
    ∃ rest, s.upcoming =
        (emit (s.pastInsertion index r) .inserted s.position edit.first edit.others).1 :: rest ∧
      s.HandsOut rest
        (emit (s.pastInsertion index r) .inserted s.position edit.first edit.others).2 := by
  obtain ⟨hget, -, hle⟩ := EditLog.insertionDue?_some hd
  obtain ⟨hlt, -⟩ := List.getElem?_eq_some_iff.mp hget
  have hconsumed : (s.log.consumeInsertion index).resetConsumed = s.log.resetConsumed :=
    EditLog.resetConsumed_consume s.log (.insertion index)
  refine ⟨edit.others.map (Token.synthetic · (.emptyAt s.position) .inserted) ++
    s.log.insertedFrom (index + 1) s.position, ?_, rfl, rfl, ?_, hconsumed, .inl ?_⟩
  · rw [upcoming_of_nil hp, EditLog.insertedFrom_of_due hd]
    rfl
  · rw [← EditLog.insertedFrom_congr hconsumed]
    rfl
  · change (s.log.insertions.modify index _).length - (index + 1) < _
    rw [List.length_modify, insertionsAhead]
    omega

theorem Applies.of_upcoming (hp : s.pending = []) (h : s.upcoming = first :: rest) (r : Bool) :
    ∃ edits t, s.Applies r edits (.ok first) t ∧ s.HandsOut rest t := by
  cases hd : s.log.insertionDue? s.position s.insertFrom with
  | none =>
    rw [upcoming_eq_nil_iff.mpr ⟨hp, hd⟩] at h
    cases h
  | some due =>
    obtain ⟨rest', hupcoming, hout⟩ := handsOut_insertion hp hd r
    obtain ⟨rfl, rfl⟩ := List.cons.inj (h.symm.trans hupcoming)
    exact ⟨_, _, .insertion hd, hout⟩

/-- While there are tokens ahead, a call gives the first of them. -/
theorem Call.of_upcoming (h : s.upcoming = first :: rest) :
    ∃ edits t, s.Call edits (.ok first) t ∧ s.HandsOut rest t := by
  cases hp : s.pending with
  | nil =>
    obtain ⟨edits, t, happlies, hout⟩ := Applies.of_upcoming hp h false
    exact ⟨edits, t, .reading hp happlies, hout⟩
  | cons kind others =>
    rw [upcoming, pendingTokens, hp] at h
    obtain ⟨rfl, rfl⟩ := List.cons.inj h
    refine ⟨[], _, .pending hp, rfl, rfl, rfl, rfl, .inr ⟨rfl, ?_⟩⟩
    rw [hp]
    exact Nat.lt_succ_self others.length

/-- Both streams stand at one place and hand out the same before they read on. -/
structure Alike (s t : CorrectedStream) : Prop where
  scanner_eq : t.scanner = s.scanner
  floor_eq : t.resumeFloor = s.resumeFloor
  upcoming_eq : t.upcoming = s.upcoming
  regroups : s.log.Regroups t.log

namespace Alike

theorem position_eq (h : Alike s t) : t.position = s.position :=
  congrArg Scanner.position h.scanner_eq

theorem editFloor_eq (h : Alike s t) : t.editFloor = s.editFloor := by
  unfold editFloor
  rw [h.position_eq, h.floor_eq]

theorem ahead_eq (h : Alike s t) (size : Nat) : t.ahead size = s.ahead size := by
  unfold ahead
  rw [h.position_eq, h.editFloor_eq]

theorem start {text : String} {log other : EditLog} (h : log.Regroups other) :
    Alike (ofText text log) (ofText text other) where
  scanner_eq := rfl
  floor_eq := rfl
  upcoming_eq := h.inserted_eq 0
  regroups := h

theorem handsOut (h : Alike s t) (hs : s.HandsOut rest s') (ht : t.HandsOut rest t') :
    Alike s' t' where
  scanner_eq := by rw [hs.scanner_eq, ht.scanner_eq, h.scanner_eq]
  floor_eq := by rw [hs.floor_eq, ht.floor_eq, h.floor_eq]
  upcoming_eq := ht.upcoming_eq.trans hs.upcoming_eq.symm
  regroups := h.regroups.congr hs.edits_eq ht.edits_eq

/-- Streams that read on come to the same place, where they begin with the insertions anew. -/
theorem of_read (h : Alike s t) (hscanner : t'.scanner = s'.scanner)
    (hfloor : t'.resumeFloor = s'.resumeFloor)
    (hpending : t'.pendingTokens = s'.pendingTokens)
    (hs : s'.insertFrom = 0) (ht : t'.insertFrom = 0)
    (hslog : s'.log.resetConsumed = s.log.resetConsumed)
    (htlog : t'.log.resetConsumed = t.log.resetConsumed) : Alike s' t' where
  scanner_eq := hscanner
  floor_eq := hfloor
  upcoming_eq := by
    have hposition : t'.position = s'.position := congrArg Scanner.position hscanner
    have hinserted := (h.regroups.congr hslog htlog).inserted_eq s'.position
    rw [upcoming, upcoming, hpending, hs, ht, hposition, EditLog.insertedFrom_zero,
      EditLog.insertedFrom_zero, hinserted]
  regroups := h.regroups.congr hslog htlog

/-- Where nothing is ahead of the one stream, nothing is due in the other. -/
theorem insertionDue?_none (h : Alike s t) (hp : s.pending = [])
    (hd : s.log.insertionDue? s.position s.insertFrom = none) :
    t.pending = [] ∧ t.log.insertionDue? t.position t.insertFrom = none := by
  apply upcoming_eq_nil_iff.mp
  rw [h.upcoming_eq]
  exact upcoming_eq_nil_iff.mpr ⟨hp, hd⟩

/-- Removed stretches that end alike bring both streams to the same place. -/
theorem pastRemoval (h : Alike s t) (scanner : Scanner) (index : Nat) {edit found : Removal}
    (hp : s.pending = []) (ht : t.pending = []) (hlast : found.last = edit.last) :
    Alike (s.pastRemoval scanner edit index) (t.pastRemoval scanner found index) := by
  refine h.of_read ?_ ?_ ?_ rfl rfl (EditLog.resetConsumed_consume s.log (.removal index))
    (EditLog.resetConsumed_consume t.log (.removal index))
  · change scanner.seek (found.last + 1) = scanner.seek (edit.last + 1)
    rw [hlast]
  · exact congrArg (· + 1) hlast
  · exact (pendingTokens_of_nil ht).trans (pendingTokens_of_nil hp).symm

theorem isSome_insertDue? (h : Alike s t) (hp : s.pending = []) (ht : t.pending = []) (r : Bool) :
    (t.insertDue? r).isSome ↔ (s.insertDue? r).isSome := by
  have hdue {u : CorrectedStream} (hu : u.pending = []) :
      (u.insertDue? r).isSome ↔ u.upcoming ≠ [] := by
    rw [Ne, upcoming_eq_nil_iff, CorrectedStream.isSome_insertDue?, Option.isSome_iff_ne_none]
    simp [hu]
  rw [hdue hp, hdue ht, h.upcoming_eq]

end Alike

/-- What a call gives depends on what is ahead, not on the insertions it comes from. -/
theorem Applies.alike (h : s.Applies r edits answer s') (ha : Alike s t) (hp : s.pending = [])
    (ht : t.pending = []) : ∃ edits' t', t.Applies r edits' answer t' ∧ Alike s' t' := by
  induction h generalizing t with
  | @insertion s r edit index hd =>
    obtain ⟨rest, hupcoming, hout⟩ := handsOut_insertion hp hd r
    obtain ⟨edits', t', happlies, hout'⟩ := of_upcoming ht (ha.upcoming_eq.trans hupcoming) r
    exact ⟨edits', t', happlies, ha.handsOut hout hout'⟩
  | @failure s r failure scanner hd hn =>
    obtain ⟨-, hd'⟩ := ha.insertionDue?_none hp hd
    rw [← ha.scanner_eq] at hn
    refine ⟨_, _, .failure hd' hn, ha.of_read rfl ha.floor_eq ?_ rfl rfl rfl rfl⟩
    exact (pendingTokens_of_nil ht).trans (pendingTokens_of_nil hp).symm
  | @source s r kind scanner hd hn hrep hrem =>
    obtain ⟨-, hd'⟩ := ha.insertionDue?_none hp hd
    rw [← ha.scanner_eq] at hn
    rw [← ha.editFloor_eq] at hrep hrem
    refine ⟨_, _, .source hd' hn (ha.regroups.replacementCovering?_none hrep)
      (ha.regroups.removalCovering?_none hrem), ha.of_read rfl ha.floor_eq ?_ rfl rfl rfl rfl⟩
    exact (pendingTokens_of_nil ht).trans (pendingTokens_of_nil hp).symm
  | @replacement s r kind scanner edit index hd hn hrep =>
    obtain ⟨-, hd'⟩ := ha.insertionDue?_none hp hd
    rw [← ha.scanner_eq] at hn
    rw [← ha.editFloor_eq] at hrep
    obtain ⟨found, hfound, hfirst, hothers, hlast⟩ := ha.regroups.replacementCovering?_some hrep
    have happlies : t.Applies r [.replacement index] _ _ := .replacement hd' hn hfound
    simp only [pastReplacement, hfirst, hothers, hlast] at happlies
    refine ⟨_, _, happlies, ha.of_read rfl rfl rfl rfl rfl ?_ ?_⟩
    · exact EditLog.resetConsumed_consume s.log (.replacement index)
    · exact EditLog.resetConsumed_consume t.log (.replacement index)
  | @removal s s' r kind scanner edit index edits answer hd hn hrep hrem hmore rest ih =>
    obtain ⟨-, hd'⟩ := ha.insertionDue?_none hp hd
    rw [← ha.scanner_eq] at hn
    rw [← ha.editFloor_eq] at hrep hrem
    obtain ⟨found, hfound, hstart, hlast⟩ := ha.regroups.removalCovering?_some hrem
    have hpast := ha.pastRemoval scanner index hp ht hlast
    obtain ⟨edits', t', happlies, hend⟩ := ih hpast hp ht
    refine ⟨_, t', .removal hd' hn (ha.regroups.replacementCovering?_none hrep) hfound ?_ happlies,
      hend⟩
    rw [hstart, hlast]
    exact hmore.imp_right fun hdue => (hpast.isSome_insertDue? hp ht true).mpr hdue
  | @endless s r kind scanner edit index hd hn hrep hrem hmore hnone =>
    obtain ⟨-, hd'⟩ := ha.insertionDue?_none hp hd
    rw [← ha.scanner_eq] at hn
    rw [← ha.editFloor_eq] at hrep hrem
    obtain ⟨found, hfound, hstart, hlast⟩ := ha.regroups.removalCovering?_some hrem
    have hpast := ha.pastRemoval scanner index hp ht hlast
    refine ⟨_, _, .endless hd' hn (ha.regroups.replacementCovering?_none hrep) hfound ?_ ?_, hpast⟩
    · rw [hstart, hlast]
      exact hmore
    · rw [← Option.not_isSome_iff_eq_none, hpast.isSome_insertDue? hp ht true, hnone]
      exact Bool.false_ne_true

theorem Call.unique {edits' : List Application} {answer' : Except StreamFailure Token}
    (h : s.Call edits answer s') (h' : s.Call edits' answer' t) : answer = answer' ∧ s' = t := by
  have hnext := (next_eq_iff.mpr ⟨edits, h⟩).symm.trans (next_eq_iff.mpr ⟨edits', h'⟩)
  exact Prod.mk.inj hnext

theorem Call.alike (h : s.Call edits answer s') (ha : Alike s t) :
    ∃ edits' t', t.Call edits' answer t' ∧ Alike s' t' := by
  cases hs : s.upcoming with
  | nil =>
    obtain ⟨hp, hd⟩ := upcoming_eq_nil_iff.mp hs
    obtain ⟨ht, -⟩ := ha.insertionDue?_none hp hd
    cases h with
    | pending hp' => cases hp.symm.trans hp'
    | reading _ happlies =>
      obtain ⟨edits', t', happlies', hend⟩ := happlies.alike ha hp ht
      exact ⟨edits', t', .reading ht happlies', hend⟩
  | cons first rest =>
    obtain ⟨edits', s₁, hcall, hout⟩ := of_upcoming hs
    obtain ⟨rfl, rfl⟩ := h.unique hcall
    obtain ⟨edits', t', hcall', hout'⟩ := of_upcoming (ha.upcoming_eq.trans hs)
    exact ⟨edits', t', hcall', ha.handsOut hout hout'⟩

/-- The insertion that was applied last, if any, is one at the place where the stream is. -/
theorem Applies.insertFrom_cases (h : s.Applies r edits answer t) (hs : s.Inside) :
    t.insertFrom = 0 ∨ ∃ index anchor, t.insertFrom = index + 1 ∧
      s.log.anchor? index = some anchor ∧ anchor + 1 = t.position := by
  induction h with
  | @insertion s r edit index hd =>
    obtain ⟨hedit, hanchor, -⟩ := EditLog.insertionDue?_some hd
    exact .inr ⟨index, edit.anchor, rfl, congrArg (Option.map _) hedit, hanchor⟩
  | failure => exact .inl rfl
  | source => exact .inl rfl
  | replacement => exact .inl rfl
  | removal hd hn hp hm hr rest ih =>
    have hpast := forward_pastRemoval hs hn hm
    refine (ih hpast.inside).imp_right ?_
    rintro ⟨index, anchor, hindex, hanchor, hplace⟩
    exact ⟨index, anchor, hindex, (hpast.anchor?_eq index).symm.trans hanchor, hplace⟩
  | endless => exact .inl rfl

/-- A call that has tokens ahead makes progress. One that reads on makes progress only if it comes
closer to the end of the source. -/
theorem Call.progress_iff (h : s.Call edits answer t) (hs : s.Inside) :
    Progress s.scanner.source.length s t ↔
      s.upcoming ≠ [] ∨ t.ahead s.scanner.source.length < s.ahead s.scanner.source.length := by
  cases hu : s.upcoming with
  | cons first rest =>
    obtain ⟨edits', s₁, hcall, hout⟩ := of_upcoming hu
    obtain ⟨-, rfl⟩ := h.unique hcall
    simp [hout.progress]
  | nil =>
    obtain ⟨hp, hd⟩ := upcoming_eq_nil_iff.mp hu
    constructor
    · rintro (hlt | ⟨heq, hfewer⟩)
      · exact .inr hlt
      · -- At the same place an insertion from the present index on would have been due before.
        exfalso
        have hgo := h.forward hs
        have hposition : t.position = s.position := by
          have := hgo.position_le
          have := hgo.floor_le
          have := hgo.inside
          unfold Inside at this hs
          rw [hgo.source_eq] at this
          unfold ahead at heq
          omega
        have hlength : t.log.insertions.length = s.log.insertions.length := by
          have := congrArg (fun log : EditLog => log.insertions.length) hgo.edits_eq
          simpa [EditLog.resetConsumed] using this
        have hmore : s.insertionsAhead ≤ t.insertionsAhead := by
          unfold insertionsAhead
          rw [hlength]
          cases h with
          | pending hp' => cases hp.symm.trans hp'
          | reading _ happlies =>
            rcases happlies.insertFrom_cases hs with
              hzero | ⟨index, anchor, hindex, hanchor, hplace⟩
            · omega
            · obtain ⟨edit, hedit, rfl⟩ := Option.map_eq_some_iff.mp hanchor
              have hlow : ¬ s.insertFrom ≤ index := fun hle =>
                EditLog.insertionDue?_none hd hedit hle (hplace.trans hposition)
              omega
        have hempty : s.pending.length = 0 := congrArg List.length hp
        omega
    · rintro (hne | hlt)
      · exact absurd rfl hne
      · exact .inl hlt

theorem Call.progress_alike {edits' : List Application} {answer' : Except StreamFailure Token}
    {size : Nat} (h : s.Call edits answer s') (h' : t.Call edits' answer' t') (ha : Alike s t)
    (hend : Alike s' t') (hs : s.Inside) (hsize : s.scanner.source.length = size) :
    Progress size t t' ↔ Progress size s s' := by
  have ht : t.Inside := by
    unfold Inside
    rw [ha.position_eq, ha.scanner_eq]
    exact hs
  have hsize' : t.scanner.source.length = size := by rw [ha.scanner_eq, hsize]
  have hiff := h.progress_iff hs
  have hiff' := h'.progress_iff ht
  rw [hsize] at hiff
  rw [hsize', ha.upcoming_eq, ha.ahead_eq, hend.ahead_eq] at hiff'
  exact hiff'.trans hiff.symm

/-- Alike streams are drained alike. -/
theorem collect_alike {size returns : Nat} {found : List Token} (hs : s.Inside)
    (hsize : s.scanner.source.length = size) (ha : Alike s t) :
    (t.collect size returns found).1 = (s.collect size returns found).1 := by
  revert t
  fun_induction collect size returns found s with
  | case1 returns found s failure s' hn =>
    intro t ha
    obtain ⟨edits, hcall⟩ := next_eq_iff.mp hn
    obtain ⟨edits', t', hcall', -⟩ := hcall.alike ha
    rw [collect, next_eq_iff.mpr ⟨edits', hcall'⟩]
  | case2 returns found s token s' hn found' hk =>
    intro t ha
    obtain ⟨edits, hcall⟩ := next_eq_iff.mp hn
    obtain ⟨edits', t', hcall', -⟩ := hcall.alike ha
    rw [collect_of_last size returns found (next_eq_iff.mpr ⟨edits', hcall'⟩) hk]
    simp [found']
  | case3 returns found s token s' hn found' hk hprogress ih =>
    intro t ha
    obtain ⟨edits, hcall⟩ := next_eq_iff.mp hn
    obtain ⟨edits', t', hcall', hend⟩ := hcall.alike ha
    have hgo := hcall.forward hs
    have hprogress' := (hcall.progress_alike hcall' ha hend hs hsize).mpr hprogress
    rw [collect_of_progress returns found (next_eq_iff.mpr ⟨edits', hcall'⟩) hk hprogress']
    exact ih hgo.inside ((congrArg List.length hgo.source_eq).trans hsize) hend
  | case4 found s token s' hn hk hprogress =>
    intro t ha
    obtain ⟨edits, hcall⟩ := next_eq_iff.mp hn
    obtain ⟨edits', t', hcall', hend⟩ := hcall.alike ha
    have hprogress' := mt (hcall.progress_alike hcall' ha hend hs hsize).mp hprogress
    rw [collect, next_eq_iff.mpr ⟨edits', hcall'⟩]
    simp only [if_neg hk, dif_neg hprogress']
  | case5 found s token s' hn found' hk hprogress returns ih =>
    intro t ha
    obtain ⟨edits, hcall⟩ := next_eq_iff.mp hn
    obtain ⟨edits', t', hcall', hend⟩ := hcall.alike ha
    have hgo := hcall.forward hs
    have hprogress' := mt (hcall.progress_alike hcall' ha hend hs hsize).mp hprogress
    rw [collect, next_eq_iff.mpr ⟨edits', hcall'⟩]
    simp only [if_neg hk, dif_neg hprogress']
    exact ih hgo.inside ((congrArg List.length hgo.source_eq).trans hsize) hend

/-- The tokens of a corrected text do not hang on how those inserted at one place are divided. -/
theorem tokens_ofText_regroups {log other : EditLog} (h : log.Regroups other) (text : String) :
    (ofText text other).tokens.1 = (ofText text log).tokens.1 :=
  collect_alike (Nat.zero_le _) rfl (.start h)

end CorrectedStream
end SyntaxRecovery
