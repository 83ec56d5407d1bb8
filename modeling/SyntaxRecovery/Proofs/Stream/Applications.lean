import SyntaxRecovery.Proofs.Lexical.Boundaries
import SyntaxRecovery.Proofs.Stream.Calls

/-! Which edits a call of the corrected stream applies, and in what order. A run is any number of
calls one after another, with failed ones among them. -/
namespace SyntaxRecovery

/-- An edit that the stream applies, by its index in the log. -/
inductive Application where
  | insertion (index : Nat)
  | replacement (index : Nat)
  | removal (index : Nat)
  deriving DecidableEq, Repr

namespace EditLog

/-- Marks the edit as consumed. -/
def consume (log : EditLog) : Application → EditLog
  | .insertion index => log.consumeInsertion index
  | .replacement index => log.consumeReplacement index
  | .removal index => log.consumeRemoval index

/-- The first and the last byte that an edit replaces or removes. -/
def stretch? (log : EditLog) : Application → Option (Nat × Nat)
  | .insertion _ => none
  | .replacement index => log.replacements[index]?.map fun edit => (edit.start, edit.last)
  | .removal index => log.removals[index]?.map fun edit => (edit.start, edit.last)

@[simp] theorem resetConsumed_consume (log : EditLog) (edit : Application) :
    (log.consume edit).resetConsumed = log.resetConsumed := by
  cases edit with
  | insertion index =>
    exact EditLog.ext rfl
      (map_modify_of_eq (fun edit : Insertion => ({ edit with consumed := false } : Insertion))
        (fun edit => { edit with consumed := true }) (fun _ => rfl) _ _) rfl rfl
  | replacement index =>
    exact EditLog.ext rfl rfl
      (map_modify_of_eq (fun edit : Replacement => ({ edit with consumed := false } : Replacement))
        (fun edit => { edit with consumed := true }) (fun _ => rfl) _ _) rfl
  | removal index =>
    exact EditLog.ext rfl rfl rfl
      (map_modify_of_eq (fun edit : Removal => ({ edit with consumed := false } : Removal))
        (fun edit => { edit with consumed := true }) (fun _ => rfl) _ _)

theorem stretches_resetConsumed (log : EditLog) : log.resetConsumed.stretches = log.stretches := by
  simp [resetConsumed, stretches, Function.comp_def]

theorem stretch?_resetConsumed (log : EditLog) (edit : Application) :
    log.resetConsumed.stretch? edit = log.stretch? edit := by
  cases edit <;> simp [resetConsumed, stretch?, Function.comp_def]

theorem stretch?_of_replacementCovering? {log : EditLog} {previous index : Nat} {span : Span}
    {edit : Replacement} (h : log.replacementCovering? previous span = some (edit, index)) :
    log.stretch? (.replacement index) = some (edit.start, edit.last) :=
  congrArg (Option.map _) (replacementCovering?_some h).1

theorem stretch?_of_removalCovering? {log : EditLog} {previous index : Nat} {span : Span}
    {edit : Removal} (h : log.removalCovering? previous span = some (edit, index)) :
    log.stretch? (.removal index) = some (edit.start, edit.last) :=
  congrArg (Option.map _) (removalCovering?_getElem? h)

end EditLog

namespace CorrectedStream

/-- The stream once the insertion at `index` is applied. -/
def pastInsertion (stream : CorrectedStream) (index : Nat) (afterRemoval : Bool) :
    CorrectedStream :=
  { stream with
    log := stream.log.consumeInsertion index, insertFrom := index + 1, afterRemoval }

/-- `s.Applies r edits answer t`: with nothing pending a call applies `edits` one after another,
gives `answer` and leaves `t`, where `r` says whether a removed stretch lies before. -/
inductive Applies : CorrectedStream → Bool → List Application → Except StreamFailure Token →
    CorrectedStream → Prop
  | insertion {s : CorrectedStream} {r : Bool} {edit : Insertion} {index : Nat}
    (hd : s.log.insertionDue? s.position s.insertFrom = some (edit, index)) :
    Applies s r [.insertion index]
      (.ok (emit (s.pastInsertion index r) .inserted s.position edit.first edit.others).1)
      (emit (s.pastInsertion index r) .inserted s.position edit.first edit.others).2
  | failure {s : CorrectedStream} {r : Bool} {failure : ScanFailure} {scanner : Scanner}
    (hd : s.log.insertionDue? s.position s.insertFrom = none)
    (hn : s.scanner.next = (.error failure, scanner)) :
    Applies s r [] (.error (.scan failure)) (s.readOn scanner)
  | source {s : CorrectedStream} {r : Bool} {kind : TokenKind} {scanner : Scanner}
    (hd : s.log.insertionDue? s.position s.insertFrom = none)
    (hn : s.scanner.next = (.ok kind, scanner))
    (hp : s.log.replacementCovering? s.editFloor (scanner.token kind).span = none)
    (hm : s.log.removalCovering? s.editFloor (scanner.token kind).span = none) :
    Applies s r [] (.ok (scanner.token kind))
      { s.readOn scanner with afterRemoval := r, last := some (scanner.token kind) }
  | replacement {s : CorrectedStream} {r : Bool} {kind : TokenKind} {scanner : Scanner}
    {edit : Replacement} {index : Nat}
    (hd : s.log.insertionDue? s.position s.insertFrom = none)
    (hn : s.scanner.next = (.ok kind, scanner))
    (hp : s.log.replacementCovering? s.editFloor (scanner.token kind).span = some (edit, index)) :
    Applies s r [.replacement index]
      (.ok (emit (s.pastReplacement scanner edit index r) .replaced scanner.tokenStart
        edit.first edit.others).1)
      (emit (s.pastReplacement scanner edit index r) .replaced scanner.tokenStart
        edit.first edit.others).2
  | removal {s t : CorrectedStream} {r : Bool} {kind : TokenKind} {scanner : Scanner}
    {edit : Removal} {index : Nat} {edits : List Application}
    {answer : Except StreamFailure Token}
    (hd : s.log.insertionDue? s.position s.insertFrom = none)
    (hn : s.scanner.next = (.ok kind, scanner))
    (hp : s.log.replacementCovering? s.editFloor (scanner.token kind).span = none)
    (hm : s.log.removalCovering? s.editFloor (scanner.token kind).span = some (edit, index))
    (hr : edit.start ≤ edit.last ∨ ((s.pastRemoval scanner edit index).insertDue? true).isSome)
    (rest : Applies (s.pastRemoval scanner edit index) true edits answer t) :
    Applies s r (.removal index :: edits) answer t
  | endless {s : CorrectedStream} {r : Bool} {kind : TokenKind} {scanner : Scanner}
    {edit : Removal} {index : Nat}
    (hd : s.log.insertionDue? s.position s.insertFrom = none)
    (hn : s.scanner.next = (.ok kind, scanner))
    (hp : s.log.replacementCovering? s.editFloor (scanner.token kind).span = none)
    (hm : s.log.removalCovering? s.editFloor (scanner.token kind).span = some (edit, index))
    (hr : ¬ edit.start ≤ edit.last)
    (hi : (s.pastRemoval scanner edit index).insertDue? true = none) :
    Applies s r [.removal index] (.error .endless) (s.pastRemoval scanner edit index)

theorem insertDue?_eq_none_iff {s : CorrectedStream} {r : Bool} :
    s.insertDue? r = none ↔ s.log.insertionDue? s.position s.insertFrom = none :=
  Option.map_eq_none_iff

theorem Applies.of_insertDue? {s t : CorrectedStream} {r : Bool} {token : Token}
    (h : s.insertDue? r = some (token, t)) : ∃ edits, s.Applies r edits (.ok token) t := by
  obtain ⟨edit, index, hd, heq⟩ := insertDue?_some h
  cases heq
  exact ⟨_, .insertion hd⟩

theorem advance_eq_iff {s t : CorrectedStream} {r : Bool} {answer : Except StreamFailure Token} :
    s.advance r = (answer, t) ↔ ∃ edits, s.Applies r edits answer t := by
  constructor
  · intro h
    fun_induction advance s r with
    | case1 s r token' t' hi =>
      cases h
      exact Applies.of_insertDue? hi
    | case2 s r hi failure scanner hs =>
      cases h
      exact ⟨_, .failure (insertDue?_eq_none_iff.mp hi) hs⟩
    | case3 s r hi kind scanner hs token' floor s' edit index hp token'' t' he =>
      cases h
      obtain ⟨rfl, rfl⟩ := Prod.mk.inj he
      exact ⟨_, .replacement (insertDue?_eq_none_iff.mp hi) hs hp⟩
    | case4 s r hi kind scanner hs token' floor s' hp edit index hm s'' hr ih =>
      obtain ⟨edits, hrest⟩ := ih h
      exact ⟨_, .removal (insertDue?_eq_none_iff.mp hi) hs hp hm (.inl hr) hrest⟩
    | case5 s r hi kind scanner hs token' floor s' hp edit index hm s'' hr token'' t' he =>
      cases h
      obtain ⟨edits, hrest⟩ := Applies.of_insertDue? he
      have hsome : ((s.pastRemoval scanner edit index).insertDue? true).isSome :=
        Option.isSome_of_eq_some he
      exact ⟨_, .removal (insertDue?_eq_none_iff.mp hi) hs hp hm (.inr hsome) hrest⟩
    | case6 s r hi kind scanner hs token' floor s' hp edit index hm s'' hr he =>
      obtain ⟨rfl, rfl⟩ := Prod.mk.inj h
      exact ⟨_, .endless (insertDue?_eq_none_iff.mp hi) hs hp hm hr he⟩
    | case7 s r hi kind scanner hs token' floor s' hp hm =>
      cases h
      exact ⟨_, .source (insertDue?_eq_none_iff.mp hi) hs hp hm⟩
  · rintro ⟨edits, h⟩
    induction h with
    | insertion hd =>
      rw [advance, insertDue?, hd]
      rfl
    | @failure s r failure scanner hd hn =>
      have hi : s.insertDue? r = none := insertDue?_eq_none_iff.mpr hd
      rw [advance]
      simp only [hi, hn]
      rfl
    | @source s r kind scanner hd hn hp hm =>
      have hi : s.insertDue? r = none := insertDue?_eq_none_iff.mpr hd
      rw [advance]
      simp only [hi, hn, hp]
      split
      · next h => cases hm.symm.trans h
      · rfl
    | @replacement s r kind scanner edit index hd hn hp =>
      have hi : s.insertDue? r = none := insertDue?_eq_none_iff.mpr hd
      rw [advance]
      simp only [hi, hn, hp]
      rfl
    | @removal s t r kind scanner edit index edits answer hd hn hp hm hr rest ih =>
      have hi : s.insertDue? r = none := insertDue?_eq_none_iff.mpr hd
      rw [advance]
      simp only [hi, hn, hp]
      split
      · next h =>
        cases hm.symm.trans h
        split
        · exact ih
        · next hle =>
          -- Only an insertion that is due can follow, and it is the next thing a call looks at.
          obtain ⟨⟨token, u⟩, hu⟩ := Option.isSome_iff_exists.mp (hr.resolve_left hle)
          rw [advance, hu] at ih
          split
          · next h => cases hu.symm.trans h; exact ih
          · next h => cases hu.symm.trans h
      · next h => cases hm.symm.trans h
    | @endless s r kind scanner edit index hd hn hp hm hr hi' =>
      have hi : s.insertDue? r = none := insertDue?_eq_none_iff.mpr hd
      rw [advance]
      simp only [hi, hn, hp]
      split
      · next h =>
        cases hm.symm.trans h
        rw [dif_neg hr]
        split
        · next h => cases hi'.symm.trans h
        · rfl
      · next h => cases hm.symm.trans h

/-- From `s` the stream has gone on to `t` with the edits of its log as they were, but for their
flags. -/
structure Forward (s t : CorrectedStream) : Prop where
  source_eq : t.scanner.source = s.scanner.source
  inside : t.Inside
  position_le : s.position ≤ t.position
  floor_le : s.editFloor ≤ t.editFloor
  edits_eq : t.log.resetConsumed = s.log.resetConsumed

namespace Forward
variable {s t u : CorrectedStream} {scanner : Scanner}

theorem trans (h : Forward s t) (h' : Forward t u) : Forward s u :=
  ⟨h'.source_eq.trans h.source_eq, h'.inside, Nat.le_trans h.position_le h'.position_le,
    Nat.le_trans h.floor_le h'.floor_le, h'.edits_eq.trans h.edits_eq⟩

/-- What does not look at the flags of a log sees no difference. -/
theorem eq_of_reset {α : Type} (h : Forward s t) (view : EditLog → α)
    (hview : ∀ log, view log.resetConsumed = view log) : view t.log = view s.log := by
  rw [← hview, h.edits_eq, hview]

theorem stretches_eq (h : Forward s t) : t.log.stretches = s.log.stretches :=
  h.eq_of_reset EditLog.stretches EditLog.stretches_resetConsumed

theorem stretch?_eq (h : Forward s t) (edit : Application) :
    t.log.stretch? edit = s.log.stretch? edit :=
  h.eq_of_reset (·.stretch? edit) fun log => log.stretch?_resetConsumed edit

theorem refl (hs : s.Inside) : Forward s s :=
  ⟨rfl, hs, Nat.le_refl _, Nat.le_refl _, rfl⟩

/-- What a call keeps hangs on the scan, the floor and the log alone. -/
theorem congr (h : Forward s t) (hscanner : u.scanner = t.scanner)
    (hfloor : u.resumeFloor = t.resumeFloor)
    (hlog : u.log.resetConsumed = t.log.resetConsumed) : Forward s u := by
  have hp : u.position = t.position := congrArg Scanner.position hscanner
  refine ⟨(congrArg Scanner.source hscanner).trans h.source_eq, ?_, hp ▸ h.position_le, ?_,
    hlog.trans h.edits_eq⟩
  · unfold Inside
    rw [hp, hscanner]
    exact h.inside
  · unfold editFloor
    rw [hp, hfloor]
    exact h.floor_le

theorem readOn (hsource : scanner.source = s.scanner.source) (hs : s.position ≤ scanner.position)
    (hlength : scanner.position ≤ s.scanner.source.length) : Forward s (s.readOn scanner) := by
  refine ⟨hsource, Nat.le_trans hlength (Nat.le_of_eq (congrArg List.length hsource.symm)), hs, ?_,
    rfl⟩
  exact Nat.max_le.mpr ⟨Nat.le_trans hs (Nat.le_max_left _ _), Nat.le_max_right _ _⟩

end Forward

/-- Behind an edit the scan is behind the token that the edit holds. -/
theorem position_le_resumeAfter {s : CorrectedStream} {kind : TokenKind} {scanner : Scanner}
    {start last : Nat} (hs : s.Inside)
    (hn : s.scanner.next = (.ok kind, scanner))
    (hc : EditCovers s.editFloor (scanner.token kind).span start last) :
    scanner.position ≤ ((s.readOn scanner).resumeAfter last).position := by
  have hstep := hs.steps hn
  have hsource : (s.readOn scanner).scanner.source = s.scanner.source := hstep.source_eq
  rw [position_resumeAfter, hsource]
  exact Nat.le_min.mpr ⟨hc.2.2, hstep.position_le_length⟩

/-- An edit that holds the token just read makes the scan go on behind it. -/
theorem forward_resumeAfter {s : CorrectedStream} {kind : TokenKind} {scanner : Scanner}
    {start last : Nat} (hs : s.Inside) (hn : s.scanner.next = (.ok kind, scanner))
    (hc : EditCovers s.editFloor (scanner.token kind).span start last) :
    Forward s ((s.readOn scanner).resumeAfter last) := by
  have hstep := hs.steps hn
  have hread : s.position ≤ scanner.position :=
    Nat.le_trans hstep.position_le_start hstep.start_le
  have hfloor : s.editFloor ≤ last + 1 :=
    Nat.le_trans (Nat.le_trans hc.1 hc.2.1) (Nat.le_trans hstep.start_le hc.2.2)
  refine ⟨hstep.source_eq, Nat.min_le_right _ _, ?_, ?_, rfl⟩
  · exact Nat.le_trans hread (position_le_resumeAfter hs hn hc)
  · rw [resumeAfter_editFloor]
    exact hfloor

theorem forward_pastRemoval {s : CorrectedStream} {kind : TokenKind} {scanner : Scanner}
    {edit : Removal} {index : Nat} (hs : s.Inside) (hn : s.scanner.next = (.ok kind, scanner))
    (hm : s.log.removalCovering? s.editFloor (scanner.token kind).span = some (edit, index)) :
    Forward s (s.pastRemoval scanner edit index) :=
  (forward_resumeAfter hs hn (EditLog.removalCovering?_some hm).2).congr rfl rfl
    (EditLog.resetConsumed_consume _ (.removal _))

theorem Applies.forward {s t : CorrectedStream} {r : Bool} {edits : List Application}
    {answer : Except StreamFailure Token} (h : s.Applies r edits answer t) (hs : s.Inside) :
    Forward s t := by
  induction h with
  | insertion hd =>
    exact (Forward.refl hs).congr rfl rfl (EditLog.resetConsumed_consume _ (.insertion _))
  | failure hd hn =>
    obtain ⟨hsource, hle, hlength⟩ := Scanner.next_error hn hs
    exact .readOn hsource hle hlength
  | source hd hn hp hm =>
    have hstep := hs.steps hn
    have hle := Nat.le_trans hstep.position_le_start hstep.start_le
    exact (Forward.readOn hstep.source_eq hle hstep.position_le_length).congr rfl rfl rfl
  | replacement hd hn hp =>
    exact (forward_resumeAfter hs hn (EditLog.replacementCovering?_some hp).2).congr rfl rfl
      (EditLog.resetConsumed_consume _ (.replacement _))
  | removal hd hn hp hm hr rest ih =>
    have hpast := forward_pastRemoval hs hn hm
    exact hpast.trans (ih hpast.inside)
  | endless hd hn hp hm hr hi =>
    exact forward_pastRemoval hs hn hm

/-- The log afterwards has the flags of the edits set that a call applies. -/
theorem Applies.log_eq {s t : CorrectedStream} {r : Bool} {edits : List Application}
    {answer : Except StreamFailure Token} (h : s.Applies r edits answer t) :
    t.log = edits.foldl EditLog.consume s.log := by
  induction h with
  | insertion => rfl
  | failure => rfl
  | source => rfl
  | replacement => rfl
  | removal _ _ _ _ _ _ ih => exact ih
  | endless => rfl

/-- `s.Call edits answer t`: a call applies `edits`, gives `answer` and leaves `t`. -/
inductive Call : CorrectedStream → List Application → Except StreamFailure Token →
    CorrectedStream → Prop
  | pending {s : CorrectedStream} {kind : TokenKind} {others : List TokenKind}
    (hp : s.pending = kind :: others) :
    Call s [] (.ok (emit s s.pendingOrigin s.pendingOffset kind others).1)
      (emit s s.pendingOrigin s.pendingOffset kind others).2
  | reading {s t : CorrectedStream} {edits : List Application} {answer : Except StreamFailure Token}
    (hp : s.pending = []) (h : s.Applies false edits answer t) : Call s edits answer t

theorem next_eq_iff {s t : CorrectedStream} {answer : Except StreamFailure Token} :
    s.next = (answer, t) ↔ ∃ edits, s.Call edits answer t := by
  unfold next
  split
  · next kind others hp =>
    constructor
    · intro h
      cases h
      exact ⟨_, .pending hp⟩
    · rintro ⟨edits, h⟩
      cases h with
      | pending hp' => cases hp.symm.trans hp'; rfl
      | reading hp' => cases hp.symm.trans hp'
  · next hp =>
    rw [advance_eq_iff]
    constructor
    · rintro ⟨edits, h⟩
      exact ⟨edits, .reading hp h⟩
    · rintro ⟨edits, h⟩
      cases h with
      | pending hp' => cases hp.symm.trans hp'
      | reading _ h => exact ⟨edits, h⟩

namespace Call
variable {s t : CorrectedStream} {edits : List Application} {answer : Except StreamFailure Token}

theorem forward (h : s.Call edits answer t) (hs : s.Inside) : Forward s t := by
  cases h with
  | pending => exact (Forward.refl hs).congr rfl rfl rfl
  | reading _ h => exact h.forward hs

theorem log_eq (h : s.Call edits answer t) : t.log = edits.foldl EditLog.consume s.log := by
  cases h with
  | pending => rfl
  | reading _ h => exact h.log_eq

end Call

/-- `s.Run answers edits t`: as many calls as there are `answers` give these, apply `edits` and
leave `t`. -/
inductive Run : CorrectedStream → List (Except StreamFailure Token) → List Application →
    CorrectedStream → Prop
  | nil {s : CorrectedStream} : Run s [] [] s
  | cons {s t u : CorrectedStream} {answer : Except StreamFailure Token}
    {answers : List (Except StreamFailure Token)} {edits more : List Application}
    (call : s.Call edits answer t) (rest : Run t answers more u) :
    Run s (answer :: answers) (edits ++ more) u

namespace Run
variable {s t u : CorrectedStream} {answers : List (Except StreamFailure Token)}
  {edits more : List Application} {answer : Except StreamFailure Token}

theorem snoc (h : s.Run answers edits t) (call : t.Call more answer u) :
    s.Run (answers ++ [answer]) (edits ++ more) u := by
  induction h with
  | nil =>
    have := cons call nil
    rwa [List.append_nil] at this
  | cons first rest ih =>
    rw [List.append_assoc]
    exact cons first (ih call)

theorem forward (h : s.Run answers edits t) (hs : s.Inside) : Forward s t := by
  induction h with
  | nil => exact .refl hs
  | cons call rest ih =>
    have hcall := call.forward hs
    exact hcall.trans (ih hcall.inside)

end Run

/-- The answers to the next calls, and the stream behind them. -/
def calls : Nat → CorrectedStream → List (Except StreamFailure Token) × CorrectedStream
  | 0, s => ([], s)
  | n + 1, s =>
    let (answers, t) := calls n s.next.2
    (s.next.1 :: answers, t)

/-- Calls one after another are the runs of as many answers. -/
theorem calls_eq_iff {s t : CorrectedStream} {answers : List (Except StreamFailure Token)}
    {n : Nat} : s.calls n = (answers, t) ↔ answers.length = n ∧ ∃ edits, s.Run answers edits t := by
  induction n generalizing s answers with
  | zero =>
    constructor
    · intro h
      cases h
      exact ⟨rfl, [], .nil⟩
    · rintro ⟨hlength, edits, hrun⟩
      obtain rfl := List.eq_nil_of_length_eq_zero hlength
      cases hrun
      rfl
  | succ n ih =>
    obtain ⟨first, hfirst⟩ := next_eq_iff.mp (show s.next = (s.next.1, s.next.2) from rfl)
    constructor
    · intro h
      obtain ⟨rfl, ht⟩ := Prod.mk.inj h
      obtain ⟨hlength, more, hrest⟩ := ih.mp (Prod.ext rfl ht)
      exact ⟨congrArg Nat.succ hlength, first ++ more, .cons hfirst hrest⟩
    · rintro ⟨hlength, edits, hrun⟩
      cases hrun with
      | nil => cases hlength
      | @cons _ u _ answer answers edits more call rest =>
        have hnext : s.next = (answer, u) := next_eq_iff.mpr ⟨edits, call⟩
        have hrest := ih.mpr ⟨Nat.succ.inj hlength, more, rest⟩
        rw [calls, hnext, hrest]

/-- A stream is drained by one call after another. -/
theorem collect_eq_ok {s t : CorrectedStream} {size returns : Nat} {found out : List Token}
    (h : s.collect size returns found = (.ok out, t)) :
    ∃ n tokens, out = found.reverse ++ tokens ∧ s.calls n = (tokens.map .ok, t) := by
  fun_induction collect size returns found s with
  | case1 => cases h
  | case2 returns found s token t' hn found' hk =>
    cases h
    exact ⟨1, [token], List.reverse_cons, by simp [calls, hn]⟩
  | case3 returns found s token t' hn found' hk hp ih =>
    obtain ⟨n, tokens, hout, hcalls⟩ := ih h
    exact ⟨n + 1, token :: tokens, by simp [hout, found'], by simp [calls, hn, hcalls]⟩
  | case4 => cases h
  | case5 found s token t' hn found' hk hp returns ih =>
    obtain ⟨n, tokens, hout, hcalls⟩ := ih h
    exact ⟨n + 1, token :: tokens, by simp [hout, found'], by simp [calls, hn, hcalls]⟩

end CorrectedStream
end SyntaxRecovery
