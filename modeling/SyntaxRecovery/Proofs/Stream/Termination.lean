import SyntaxRecovery.Proofs.Stream.Applications

/-! The corrected stream comes to an end, and on the way it applies no replacement and no removal
twice. An edit that starts below the floor is out of reach, and each one that is applied lifts the
floor above its start, but for an empty one at the end of the source. -/
namespace SyntaxRecovery

namespace EditLog
variable {log other : EditLog} {edits more : List Application} {edit : Application}
  {low middle high : Nat}

/-- The stretches that `edits` replace or remove start one behind the other, from `low` on and below
`high`. -/
structure Ascends (log : EditLog) (edits : List Application) (low high : Nat) : Prop where
  pairwise : edits.Pairwise fun a b =>
    ∀ first ∈ log.stretch? a, ∀ second ∈ log.stretch? b, first.1 < second.1
  bounds : ∀ edit ∈ edits, ∀ stretch ∈ log.stretch? edit, low ≤ stretch.1 ∧ stretch.1 < high
  recorded : ∀ edit ∈ edits, (∃ index, edit = .insertion index) ∨ (log.stretch? edit).isSome

namespace Ascends

theorem nil (log : EditLog) (low high : Nat) : log.Ascends [] low high :=
  ⟨.nil, by simp, by simp⟩

theorem insertion (log : EditLog) (index low high : Nat) :
    log.Ascends [.insertion index] low high :=
  ⟨List.pairwise_singleton _ _, by simp [stretch?], by simp⟩

theorem single {stretch : Nat × Nat} (hs : log.stretch? edit = some stretch)
    (hlow : low ≤ stretch.1) (hhigh : stretch.1 < high) : log.Ascends [edit] low high := by
  refine ⟨List.pairwise_singleton _ _, ?_, by simp [hs]⟩
  intro other ho found hf
  obtain rfl := List.mem_singleton.mp ho
  obtain rfl : stretch = found := Option.some.inj (hs.symm.trans hf)
  exact ⟨hlow, hhigh⟩

theorem congr (h : log.Ascends edits low high)
    (hs : ∀ edit, other.stretch? edit = log.stretch? edit) : other.Ascends edits low high := by
  refine ⟨?_, ?_, ?_⟩
  · simpa only [hs] using h.pairwise
  · simpa only [hs] using h.bounds
  · simpa only [hs] using h.recorded

theorem append (h : log.Ascends edits low middle) (h' : log.Ascends more middle high)
    (hlow : low ≤ middle) (hhigh : middle ≤ high) : log.Ascends (edits ++ more) low high := by
  refine ⟨List.pairwise_append.mpr ⟨h.pairwise, h'.pairwise, ?_⟩, ?_, ?_⟩
  · intro a ha b hb first hfirst second hsecond
    exact Nat.lt_of_lt_of_le (h.bounds a ha first hfirst).2 (h'.bounds b hb second hsecond).1
  · intro edit he stretch hs
    rcases List.mem_append.mp he with he | he
    · obtain ⟨hmin, hmax⟩ := h.bounds edit he stretch hs
      exact ⟨hmin, Nat.lt_of_lt_of_le hmax hhigh⟩
    · obtain ⟨hmin, hmax⟩ := h'.bounds edit he stretch hs
      exact ⟨Nat.le_trans hlow hmin, hmax⟩
  · intro edit he
    exact (List.mem_append.mp he).elim (h.recorded edit) (h'.recorded edit)

/-- What starts below itself is not there twice. -/
theorem count_le_one (h : log.Ascends edits low high) (hi : ∀ index, edit ≠ .insertion index) :
    edits.count edit ≤ 1 := by
  rcases Nat.lt_or_ge (edits.count edit) 2 with hlt | htwice
  · exact Nat.le_of_lt_succ hlt
  · have hmem : edit ∈ edits := List.count_pos_iff.mp (Nat.lt_of_lt_of_le Nat.zero_lt_two htwice)
    obtain ⟨index, rfl⟩ | hsome := h.recorded edit hmem
    · exact absurd rfl (hi index)
    · obtain ⟨stretch, hs⟩ := Option.isSome_iff_exists.mp hsome
      have hpair := h.pairwise.sublist (List.replicate_sublist_iff.mpr htwice)
      have hself := (List.pairwise_cons.mp hpair).1 edit (List.mem_cons_self ..)
      exact absurd (hself stretch hs stretch hs) (Nat.lt_irrefl _)

end Ascends
end EditLog

namespace CorrectedStream
variable {s t : CorrectedStream} {r : Bool} {edits : List Application} {token : Token}
  {answer : Except StreamFailure Token} {answers : List (Except StreamFailure Token)}

theorem Forward.noneEmptyAt (h : Forward s t) (hlog : s.log.NoneEmptyAt s.scanner.source.length) :
    t.log.NoneEmptyAt t.scanner.source.length := by
  rw [h.source_eq]
  exact hlog.congr h.stretches_eq

/-- Going on takes the applied stretches upward, from the floor before to the floor afterwards. -/
theorem Applies.ascends (h : s.Applies r edits answer t) (hs : s.Inside)
    (hlog : s.log.NoneEmptyAt s.scanner.source.length) :
    s.log.Ascends edits s.editFloor t.editFloor ∧ answer ≠ .error .endless := by
  induction h with
  | insertion hd => exact ⟨.insertion _ _ _ _, nofun⟩
  | failure hd hn => exact ⟨.nil _ _ _, nofun⟩
  | source hd hn hp hm => exact ⟨.nil _ _ _, nofun⟩
  | @replacement s r kind scanner edit index hd hn hp =>
    have hle := le_of_replacementCovering? hs hlog hn hp
    refine ⟨.single (EditLog.stretch?_of_replacementCovering? hp)
      (EditLog.replacementCovering?_some hp).2.1 ?_, nofun⟩
    change edit.start < ((s.readOn scanner).resumeAfter edit.last).editFloor
    rw [resumeAfter_editFloor]
    exact Nat.lt_succ_of_le hle
  | @removal s t r kind scanner edit index edits answer hd hn hp hm hr rest ih =>
    have hle := le_of_removalCovering? hs hlog hn hm
    have hpast := forward_pastRemoval hs hn hm
    obtain ⟨hrest, hanswer⟩ := ih hpast.inside (hpast.noneEmptyAt hlog)
    have hlt : edit.start < (s.pastRemoval scanner edit index).editFloor := by
      change edit.start < ((s.readOn scanner).resumeAfter edit.last).editFloor
      rw [resumeAfter_editFloor]
      exact Nat.lt_succ_of_le hle
    refine ⟨?_, hanswer⟩
    exact (EditLog.Ascends.single (EditLog.stretch?_of_removalCovering? hm)
      (EditLog.removalCovering?_some hm).2.1 hlt).append
        (hrest.congr fun edit => (hpast.stretch?_eq edit).symm) hpast.floor_le
          (rest.forward hpast.inside).floor_le
  | endless hd hn hp hm hr hi =>
    exact absurd (le_of_removalCovering? hs hlog hn hm) hr

theorem Call.ascends (h : s.Call edits answer t) (hs : s.Inside)
    (hlog : s.log.NoneEmptyAt s.scanner.source.length) :
    s.log.Ascends edits s.editFloor t.editFloor ∧ answer ≠ .error .endless := by
  cases h with
  | pending => exact ⟨.nil _ _ _, nofun⟩
  | reading hp h => exact h.ascends hs hlog

theorem Call.progress (h : s.Call edits (.ok token) t) (hs : s.Inside)
    (hlog : s.log.NoneEmptyAt s.scanner.source.length) (hk : token.kind ≠ .endOfSource) :
    Progress s.scanner.source.length s t := by
  generalize ha : Except.ok token = answer at h
  cases h with
  | pending hp =>
    refine .inr ⟨rfl, .inr ⟨rfl, ?_⟩⟩
    rw [hp]
    exact Nat.lt_succ_self _
  | reading hp h =>
    subst ha
    exact (advance_eq_ok_iff.mp (advance_eq_iff.mpr ⟨edits, h⟩)).progress hs hlog hk

theorem Run.ascends (h : s.Run answers edits t) (hs : s.Inside)
    (hlog : s.log.NoneEmptyAt s.scanner.source.length) :
    s.log.Ascends edits s.editFloor t.editFloor ∧ .error .endless ∉ answers := by
  induction h with
  | nil => exact ⟨.nil _ _ _, List.not_mem_nil⟩
  | cons call rest ih =>
    have hcall := call.forward hs
    obtain ⟨hfirst, hanswer⟩ := call.ascends hs hlog
    obtain ⟨hmore, hanswers⟩ := ih hcall.inside (hcall.noneEmptyAt hlog)
    refine ⟨hfirst.append (hmore.congr fun edit => (hcall.stretch?_eq edit).symm) hcall.floor_le
      (rest.forward hcall.inside).floor_le, ?_⟩
    rw [List.mem_cons, not_or]
    exact ⟨hanswer.symm, hanswers⟩

/-- The answer is the end of the source, or what keeps the scan from reading on. -/
def Ends : Except StreamFailure Token → Prop
  | .ok token => token.kind = .endOfSource
  | .error failure => ∃ reason, failure = .scan reason

/-- The tokens that calls give one by one, up to the first that ends the stream. -/
structure Drains (s : CorrectedStream) (tokens : List Token) (answer : Except StreamFailure Token)
    (edits : List Application) (t : CorrectedStream) : Prop where
  run : s.Run (tokens.map .ok ++ [answer]) edits t
  goesOn : ∀ token ∈ tokens, token.kind ≠ .endOfSource
  ends : Ends answer

theorem Drains.cons {u : CorrectedStream} {first : Token} {tokens : List Token}
    {more : List Application} (call : s.Call edits (.ok first) t) (hk : first.kind ≠ .endOfSource)
    (h : t.Drains tokens answer more u) : s.Drains (first :: tokens) answer (edits ++ more) u :=
  ⟨.cons call h.run, List.forall_mem_cons.mpr ⟨hk, h.goesOn⟩, h.ends⟩

theorem Call.drains (call : s.Call edits answer t) (h : Ends answer) :
    s.Drains [] answer edits t := by
  refine ⟨?_, nofun, h⟩
  have hrun := Run.cons call .nil
  rwa [List.append_nil] at hrun

/-- `collect` asks for one token after another until the stream ends. The budget for coming back to
the end of the source is never touched. -/
theorem collect_drains {size returns : Nat} {found : List Token} (hs : s.Inside)
    (hsize : s.scanner.source.length = size) (hlog : s.log.NoneEmptyAt size) :
    ∃ tokens answer edits t, s.Drains tokens answer edits t ∧
      s.collect size returns found = (answer.map (found.reverse ++ tokens ++ [·]), t) := by
  subst hsize
  generalize hsize : s.scanner.source.length = size at hlog
  fun_induction collect size returns found s with
  | case1 returns found s failure t hn =>
    subst hsize
    obtain ⟨edits, call⟩ := next_eq_iff.mp hn
    have hends : Ends (.error failure) := by
      cases failure with
      | scan reason => exact ⟨reason, rfl⟩
      | endless => exact absurd rfl (call.ascends hs hlog).2
    exact ⟨[], _, edits, t, call.drains hends, rfl⟩
  | case2 returns found s token t hn found' hk =>
    obtain ⟨edits, call⟩ := next_eq_iff.mp hn
    refine ⟨[], _, edits, t, call.drains hk, ?_⟩
    simp [found', Except.map]
  | case3 returns found s token t hn found' hk hp ih =>
    subst hsize
    obtain ⟨edits, call⟩ := next_eq_iff.mp hn
    have hgo := call.forward hs
    obtain ⟨tokens, answer, more, u, hdrains, hcollect⟩ :=
      ih hgo.inside (congrArg List.length hgo.source_eq) (hlog.congr hgo.stretches_eq)
    refine ⟨token :: tokens, answer, edits ++ more, u, hdrains.cons call hk, ?_⟩
    rw [hcollect]
    simp [found']
  | case4 found s token t hn hk hp =>
    subst hsize
    obtain ⟨edits, call⟩ := next_eq_iff.mp hn
    exact absurd (call.progress hs hlog hk) hp
  | case5 found s token t hn found' hk hp returns ih =>
    subst hsize
    obtain ⟨edits, call⟩ := next_eq_iff.mp hn
    exact absurd (call.progress hs hlog hk) hp

/-- The stream with its floor no higher than `cap`. -/
def capFloor (cap : Nat) (s : CorrectedStream) : CorrectedStream :=
  { s with resumeFloor := min s.resumeFloor cap }

theorem capFloor_capFloor (cap : Nat) (s : CorrectedStream) :
    (s.capFloor cap).capFloor cap = s.capFloor cap :=
  congrArg (fun floor => { s with resumeFloor := floor })
    (Nat.min_eq_left (Nat.min_le_right s.resumeFloor cap))

theorem editCovers_capFloor {cap start last : Nat} {span : Span} (hcap : span.start < cap) :
    EditCovers (s.capFloor cap).editFloor span start last ↔
      EditCovers s.editFloor span start last := by
  have hfloor : (s.capFloor cap).editFloor = max s.position (min s.resumeFloor cap) := rfl
  have hfloor' : s.editFloor = max s.position s.resumeFloor := rfl
  unfold EditCovers
  omega

theorem replacementCovering?_capFloor {cap : Nat} {span : Span} (hcap : span.start < cap) :
    s.log.replacementCovering? (s.capFloor cap).editFloor span =
      s.log.replacementCovering? s.editFloor span := by
  simp only [EditLog.replacementCovering?, editCovers_capFloor hcap]

theorem removalCovering?_capFloor {cap : Nat} {span : Span} (hcap : span.start < cap) :
    s.log.removalCovering? (s.capFloor cap).editFloor span =
      s.log.removalCovering? s.editFloor span := by
  simp only [EditLog.removalCovering?, editCovers_capFloor hcap]

/-- Floors behind the end of the source need not be told apart: where they stop at a `cap` above it,
every step is the same. -/
theorem Applies.capFloor {cap : Nat} (h : s.Applies r edits answer t) (hs : s.Inside)
    (hcap : s.scanner.source.length < cap) :
    ∃ u, (s.capFloor cap).Applies r edits answer u ∧ u.capFloor cap = t.capFloor cap := by
  have hstart {kind : TokenKind} {scanner : Scanner} (hn : s.scanner.next = (.ok kind, scanner)) :
      (scanner.token kind).span.start < cap := by
    have hstep := hs.steps hn
    exact Nat.lt_of_le_of_lt (Nat.le_trans hstep.start_le hstep.position_le_length) hcap
  cases h with
  | @insertion _ _ edit index hd =>
    let past := (emit (s.pastInsertion index r) .inserted s.position edit.first edit.others).2
    exact ⟨past.capFloor cap, .insertion (s := s.capFloor cap) hd, capFloor_capFloor cap past⟩
  | @failure _ _ _ scanner hd hn =>
    exact ⟨(s.readOn scanner).capFloor cap, .failure (s := s.capFloor cap) hd hn,
      capFloor_capFloor cap _⟩
  | @source _ _ kind scanner hd hn hp hm =>
    have hp' := (replacementCovering?_capFloor (hstart hn)).trans hp
    have hm' := (removalCovering?_capFloor (hstart hn)).trans hm
    let past : CorrectedStream :=
      { s.readOn scanner with afterRemoval := r, last := some (scanner.token kind) }
    exact ⟨past.capFloor cap, .source (s := s.capFloor cap) hd hn hp' hm',
      capFloor_capFloor cap past⟩
  | replacement hd hn hp =>
    have hp' := (replacementCovering?_capFloor (hstart hn)).trans hp
    exact ⟨_, .replacement (s := s.capFloor cap) hd hn hp', rfl⟩
  | removal hd hn hp hm hr rest =>
    have hp' := (replacementCovering?_capFloor (hstart hn)).trans hp
    have hm' := (removalCovering?_capFloor (hstart hn)).trans hm
    -- The floor is set anew here, whatever it was before.
    exact ⟨_, .removal (s := s.capFloor cap) hd hn hp' hm' hr rest, rfl⟩
  | endless hd hn hp hm hr hi =>
    have hp' := (replacementCovering?_capFloor (hstart hn)).trans hp
    have hm' := (removalCovering?_capFloor (hstart hn)).trans hm
    exact ⟨_, .endless (s := s.capFloor cap) hd hn hp' hm' hr hi, rfl⟩

theorem Call.capFloor {cap : Nat} (h : s.Call edits answer t) (hs : s.Inside)
    (hcap : s.scanner.source.length < cap) :
    ∃ u, (s.capFloor cap).Call edits answer u ∧ u.capFloor cap = t.capFloor cap := by
  cases h with
  | @pending kind others hp =>
    let past := (emit s s.pendingOrigin s.pendingOffset kind others).2
    exact ⟨past.capFloor cap, .pending (s := s.capFloor cap) hp, capFloor_capFloor cap past⟩
  | reading hp h =>
    obtain ⟨u, hu, heq⟩ := h.capFloor hs hcap
    exact ⟨u, .reading hp hu, heq⟩

/-- An integer that holds no number above `cap` is wide enough for the floor. -/
theorem next_capFloor {cap : Nat} (hs : s.Inside) (hcap : s.scanner.source.length < cap) :
    (s.capFloor cap).next.1 = s.next.1 ∧
      (s.capFloor cap).next.2.capFloor cap = s.next.2.capFloor cap := by
  obtain ⟨edits, call⟩ := next_eq_iff.mp (show s.next = (s.next.1, s.next.2) from rfl)
  obtain ⟨u, hu, heq⟩ := call.capFloor hs hcap
  have hnext := next_eq_iff.mpr ⟨edits, hu⟩
  rw [hnext]
  exact ⟨rfl, heq⟩

/-- Where no edit is empty at the end of the source, no call runs on for ever, however the calls
before it went. Drained, the stream hands out tokens up to the end of the source or to the place
where the scan fails. In no run is a replacement or a removal applied twice. All of this holds too
of a floor that cannot rise above a `cap` behind the source: it makes no difference to any call. -/
theorem ofText_drains {text : String} {log : EditLog}
    (hlog : log.NoneEmptyAt (Bytes.ofText text).length) :
    (∀ answers edits s, (ofText text log).Run answers edits s →
      .error .endless ∉ answers ∧ s.next.1 ≠ .error .endless ∧
        (∀ index, edits.count (.replacement index) ≤ 1 ∧ edits.count (.removal index) ≤ 1) ∧
        ∀ cap, (Bytes.ofText text).length < cap →
          (s.capFloor cap).next.1 = s.next.1 ∧
            (s.capFloor cap).next.2.capFloor cap = s.next.2.capFloor cap) ∧
      ∃ tokens answer edits s, (ofText text log).Drains tokens answer edits s ∧
        (ofText text log).tokens = (answer.map (tokens ++ [·]), s) := by
  have hinside : (ofText text log).Inside := Nat.zero_le _
  refine ⟨?_, ?_⟩
  · intro answers edits s hrun
    obtain ⟨hup, hanswers⟩ := hrun.ascends hinside hlog
    have hgo := hrun.forward hinside
    obtain ⟨more, call⟩ := next_eq_iff.mp (show s.next = (s.next.1, s.next.2) from rfl)
    refine ⟨hanswers, (call.ascends hgo.inside (hgo.noneEmptyAt hlog)).2, fun index => ?_, ?_⟩
    · exact ⟨hup.count_le_one nofun, hup.count_le_one nofun⟩
    · intro cap hcap
      rw [← show s.scanner.source = Bytes.ofText text from hgo.source_eq] at hcap
      exact next_capFloor hgo.inside hcap
  · exact collect_drains hinside rfl hlog

/-- A removal in the middle of a word, one beyond the end of the source, an inverted one and a
replacement that overlaps with these. -/
def overlappingEdits : EditLog where
  replacements := [⟨.comma, [], 1, 3, false⟩]
  removals := [⟨0, 1, false⟩, ⟨2, 9, false⟩, ⟨4, 1, false⟩]

theorem ofText_drains_overlappingEdits :
    overlappingEdits.NoneEmptyAt (Bytes.ofText "ab c").length ∧
      (∀ answers edits s, (ofText "ab c" overlappingEdits).Run answers edits s →
        .error .endless ∉ answers ∧ s.next.1 ≠ .error .endless ∧
          (∀ index, edits.count (.replacement index) ≤ 1 ∧ edits.count (.removal index) ≤ 1) ∧
          ∀ cap, (Bytes.ofText "ab c").length < cap →
            (s.capFloor cap).next.1 = s.next.1 ∧
              (s.capFloor cap).next.2.capFloor cap = s.next.2.capFloor cap) ∧
        ∃ tokens answer edits s, (ofText "ab c" overlappingEdits).Drains tokens answer edits s ∧
          (ofText "ab c" overlappingEdits).tokens = (answer.map (tokens ++ [·]), s) := by
  have hlog : overlappingEdits.NoneEmptyAt (Bytes.ofText "ab c").length := by
    rw [show (Bytes.ofText "ab c").length = 4 by decide +kernel]
    unfold EditLog.NoneEmptyAt
    decide
  exact ⟨hlog, ofText_drains hlog⟩

end CorrectedStream
end SyntaxRecovery
