import SyntaxRecovery.Proofs.Stream.Recording

/-! Starting over. A stream that is rewound keeps where its scanner last looked for a token, and the
origin and place of the kinds that it had queued. None of the calls to come depends on that, so they
give what a new stream over the same source gives. -/
namespace SyntaxRecovery

namespace Scanner
variable {s t : Scanner} {kind : TokenKind}

/-- The scanner with its last token looked for at `opening`. -/
def openedAt (s : Scanner) (opening : Cursor s.source) : Scanner := { s with opening }

/-- A token is read without a look at the one before it. -/
theorem next_openedAt (h : s.next = (.ok kind, t)) (opening : Cursor s.source) :
    (s.openedAt opening).next = (.ok kind, t) := by
  unfold next at h ⊢
  split at h
  · cases h
  · next length hskip =>
    have hskip' : Trivia.skip 0 (s.openedAt opening).place.rest = .ok length := hskip
    rw [hskip']
    exact h

/-- The next fault does not depend on the last token either. -/
theorem next_openedAt_error {failure : ScanFailure} (h : s.next = (.error failure, t))
    (opening : Cursor s.source) :
    ∃ place, (s.openedAt opening).next = (.error failure, t.openedAt place) := by
  unfold next at h ⊢
  split at h
  · next length hskip =>
    cases h
    have hskip' : Trivia.skip 0 (s.openedAt opening).place.rest = .error length := hskip
    rw [hskip']
    exact ⟨opening, rfl⟩
  · next length hskip =>
    have hskip' : Trivia.skip 0 (s.openedAt opening).place.rest = .ok length := hskip
    rw [hskip']
    exact ⟨t.opening, h⟩

end Scanner

namespace CorrectedStream
variable {s s' t : CorrectedStream} {r : Bool} {edits : List Application} {token : Token}
  {answer : Except StreamFailure Token} {text : String}

/-- The stream with its last token looked for at `opening`, and with another origin and place for
the kinds that are pending. -/
def recast (s : CorrectedStream) (opening : Cursor s.scanner.source) (pendingOrigin : TokenOrigin)
    (pendingOffset : Nat) : CorrectedStream :=
  { s with scanner := s.scanner.openedAt opening, pendingOrigin, pendingOffset }

/-- The two streams have the same calls ahead. They may differ in where the last token was looked
for and, as long as no kind is pending, in the origin and place of such kinds. -/
structure Agrees (s s' : CorrectedStream) : Prop where
  recast : ∃ opening, s' = s.recast opening s'.pendingOrigin s'.pendingOffset
  queue : s.pending ≠ [] → s.pendingOrigin ≠ .source ∧ s'.pendingOrigin = s.pendingOrigin ∧
    s'.pendingOffset = s.pendingOffset

theorem Applies.agrees (h : s.Applies r edits answer t) (hs : Agrees s s') :
    ∃ t', s'.Applies r edits answer t' ∧ Agrees t t' := by
  induction h generalizing s' with
  | @insertion s r edit index hd =>
    obtain ⟨⟨opening, hrecast⟩, -⟩ := hs
    rw [hrecast]
    exact ⟨_, .insertion (s := s.recast opening _ _) hd, ⟨opening, rfl⟩, fun _ => ⟨nofun, rfl, rfl⟩⟩
  | @failure s r failure scanner hd hn =>
    obtain ⟨⟨opening, hrecast⟩, queue⟩ := hs
    obtain ⟨place, hn'⟩ := Scanner.next_openedAt_error hn opening
    rw [hrecast]
    exact ⟨_, .failure (s := s.recast opening _ _) hd hn', ⟨place, rfl⟩, queue⟩
  | @source s r kind scanner hd hn hp hm =>
    obtain ⟨⟨opening, hrecast⟩, queue⟩ := hs
    rw [hrecast]
    exact ⟨_, .source (s := s.recast opening _ _) hd (Scanner.next_openedAt hn opening) hp hm,
      ⟨scanner.opening, rfl⟩, queue⟩
  | @replacement s r kind scanner edit index hd hn hp =>
    obtain ⟨⟨opening, hrecast⟩, -⟩ := hs
    rw [hrecast]
    exact ⟨_, .replacement (s := s.recast opening _ _) hd (Scanner.next_openedAt hn opening) hp,
      ⟨_, rfl⟩, fun _ => ⟨nofun, rfl, rfl⟩⟩
  | @removal s t r kind scanner edit index edits answer hd hn hp hm hr rest ih =>
    obtain ⟨⟨opening, hrecast⟩, queue⟩ := hs
    have hpast : Agrees (s.pastRemoval scanner edit index) (s'.pastRemoval scanner edit index) := by
      rw [hrecast]
      exact ⟨⟨scanner.opening, rfl⟩, queue⟩
    obtain ⟨t', hrest, ht⟩ := ih hpast
    rw [hrecast] at hrest ⊢
    rw [isSome_insertDue?] at hr
    exact ⟨t', .removal (s := s.recast opening _ _) hd (Scanner.next_openedAt hn opening) hp hm
      (isSome_insertDue? ▸ hr) hrest, ht⟩
  | @endless s r kind scanner edit index hd hn hp hm hr hi =>
    obtain ⟨⟨opening, hrecast⟩, queue⟩ := hs
    rw [hrecast]
    rw [insertDue?_eq_none_iff] at hi
    exact ⟨_, .endless (s := s.recast opening _ _) hd (Scanner.next_openedAt hn opening) hp hm hr
      (insertDue?_eq_none_iff.mpr hi), ⟨scanner.opening, rfl⟩, queue⟩

theorem Call.agrees (h : s.Call edits answer t) (hs : Agrees s s') :
    ∃ t', s'.Call edits answer t' ∧ Agrees t t' := by
  cases h with
  | @pending kind others hp =>
    obtain ⟨⟨opening, hrecast⟩, queue⟩ := hs
    obtain ⟨hsynthetic, horigin, hoffset⟩ := queue (by simp [hp])
    rw [horigin, hoffset] at hrecast
    rw [hrecast]
    exact ⟨_, .pending (s := s.recast opening _ _) hp, ⟨opening, rfl⟩,
      fun _ => ⟨hsynthetic, rfl, rfl⟩⟩
  | reading hp h =>
    have hp' : s'.pending = [] := by
      obtain ⟨⟨opening, hrecast⟩, -⟩ := hs
      rw [hrecast]
      exact hp
    obtain ⟨t', h', ht⟩ := h.agrees hs
    exact ⟨t', .reading hp' h', ht⟩

/-- Streams that agree give one answer and agree afterwards. -/
theorem Agrees.next (h : Agrees s s') : s'.next.1 = s.next.1 ∧ Agrees s.next.2 s'.next.2 := by
  obtain ⟨edits, call⟩ := next_eq_iff.mp (show s.next = (s.next.1, s.next.2) from rfl)
  obtain ⟨t', call', ht⟩ := call.agrees h
  rw [next_eq_iff.mpr ⟨edits, call'⟩]
  exact ⟨rfl, ht⟩

/-- The text that the stream has for a token it has handed out is that of the token. -/
theorem Applies.tokenText (h : s.Applies r edits answer t) (hanswer : answer = .ok token) :
    t.tokenText = token.text := by
  induction h with
  | insertion hd =>
    cases hanswer
    rfl
  | failure => cases hanswer
  | source =>
    cases hanswer
    rfl
  | replacement =>
    cases hanswer
    rfl
  | removal _ _ _ _ _ _ ih => exact ih hanswer
  | endless => cases hanswer

theorem Call.tokenText (h : s.Call edits (.ok token) t)
    (hs : s.pending ≠ [] → s.pendingOrigin ≠ .source) : t.tokenText = token.text := by
  cases h with
  | pending hp =>
    have hsynthetic : s.pendingOrigin ≠ .source := hs (by simp [hp])
    simp [CorrectedStream.tokenText, emit, Token.isSynthetic, Token.synthetic, hsynthetic]
  | reading _ h => exact h.tokenText rfl

/-- What a caller can see once a call has been made. -/
structure Reply where
  answer : Except StreamFailure Token
  position : Nat
  isSynthetic : Bool
  isInserted : Bool
  isReplaced : Bool
  afterRemoval : Bool
  log : EditLog
  /-- The text of the last token, where the call has given one. -/
  text : Option String

/-- The reply to the call that gives `answer` and leaves `s`. -/
def reply (answer : Except StreamFailure Token) (s : CorrectedStream) : Reply where
  answer := answer
  position := s.position
  isSynthetic := s.lastIsSynthetic
  isInserted := s.lastIsInserted
  isReplaced := s.lastIsReplaced
  afterRemoval := s.afterRemoval
  log := s.log
  text := answer.toOption.map fun _ => s.tokenText

/-- The replies to the next calls. -/
def replies : Nat → CorrectedStream → List Reply
  | 0, _ => []
  | calls + 1, s => reply s.next.1 s.next.2 :: replies calls s.next.2

/-- Streams that agree cannot be told apart, as long as the text of the last token is not asked for
after a fault. -/
theorem Agrees.reply (h : Agrees s s')
    (htext : ∀ token, answer = .ok token → s'.tokenText = s.tokenText) :
    reply answer s' = reply answer s := by
  have hsame : answer.toOption.map (fun _ => s'.tokenText) =
      answer.toOption.map fun _ => s.tokenText := by
    cases answer with
    | error => rfl
    | ok token => exact congrArg some (htext token rfl)
  obtain ⟨opening, hrecast⟩ := h.recast
  unfold CorrectedStream.reply
  rw [hsame, hrecast]
  rfl

theorem Agrees.reply_next (h : Agrees s s') :
    CorrectedStream.reply s'.next.1 s'.next.2 = CorrectedStream.reply s.next.1 s.next.2 := by
  obtain ⟨hanswer, hagrees⟩ := h.next
  rw [hanswer]
  refine hagrees.reply fun token htoken => ?_
  obtain ⟨edits, call⟩ := next_eq_iff.mp (Prod.ext htoken rfl : s.next = (.ok token, s.next.2))
  obtain ⟨edits', call'⟩ :=
    next_eq_iff.mp (Prod.ext (hanswer.trans htoken) rfl : s'.next = (.ok token, s'.next.2))
  rw [call.tokenText fun hne => (h.queue hne).1, call'.tokenText ?_]
  intro hne
  have hpending : s'.pending = s.pending := by
    obtain ⟨opening, hrecast⟩ := h.recast
    rw [hrecast]
    rfl
  obtain ⟨hsynthetic, horigin, -⟩ := h.queue (hpending ▸ hne)
  exact horigin ▸ hsynthetic

theorem Agrees.replies (h : Agrees s s') (calls : Nat) : s'.replies calls = s.replies calls := by
  induction calls generalizing s s' with
  | zero => rfl
  | succ calls ih =>
    rw [CorrectedStream.replies, CorrectedStream.replies, h.reply_next, ih h.next.2]

/-- The streams over `text` that come about by calls of any kind, successful or not. -/
inductive Driven (text : String) : CorrectedStream → Prop
  | start (log : EditLog) : Driven text (ofText text log)
  | next {s : CorrectedStream} (h : Driven text s) : Driven text s.next.2
  | setPending {s : CorrectedStream} (kinds : List TokenKind) (h : Driven text s) :
    Driven text (s.setPending kinds)
  | record {s : CorrectedStream} {request : EditRequest} {index : Nat} {log : EditLog}
    (hrecord : s.log.apply request = some (index, log)) (h : Driven text s) :
    Driven text (s.withLog log)
  | setRecording {s : CorrectedStream} (recording : Bool) (h : Driven text s) :
    Driven text (s.withLog (s.log.setRecording recording))
  | rewind {s : CorrectedStream} (h : Driven text s) : Driven text s.rewind

theorem Driven.source_eq (h : Driven text s) :
    s.scanner.source = Bytes.ofText text ∧ s.Inside := by
  induction h with
  | start => exact ⟨rfl, Nat.zero_le _⟩
  | @next s h ih =>
    obtain ⟨edits, call⟩ := next_eq_iff.mp (show s.next = (s.next.1, s.next.2) from rfl)
    have hforward := call.forward ih.2
    exact ⟨hforward.source_eq.trans ih.1, hforward.inside⟩
  | setPending kinds h ih => exact ih
  | record hrecord h ih => exact ih
  | setRecording recording h ih => exact ih
  | rewind h ih => exact ⟨ih.1, Nat.min_le_right _ _⟩

/-- A rewound stream agrees with a new one. -/
theorem agrees_rewind (hs : s.scanner.source = Bytes.ofText text) :
    Agrees (ofText text s.log.resetConsumed) s.rewind := by
  obtain ⟨⟨source, opening, place⟩, log⟩ := s
  obtain rfl : source = Bytes.ofText text := hs
  have horigin : Cursor.seek 0 = (Cursor.origin : Cursor (Bytes.ofText text)) :=
    Cursor.ext (Nat.zero_min _)
  refine ⟨⟨opening, ?_⟩, fun hne => absurd rfl hne⟩
  simp only [CorrectedStream.rewind, Scanner.seek, horigin]
  rfl

/-- Whatever has been done with a stream, once it is rewound its calls give what those of a new
stream over the same text give, where the new one has the log as it is now and no edit consumed. -/
theorem Driven.replies_rewind (h : Driven text s) (calls : Nat) :
    s.rewind.replies calls = (ofText text s.log.resetConsumed).replies calls :=
  (agrees_rewind h.source_eq.1).replies calls

/-- A comment that is not closed, and two kinds to insert behind it. -/
def openComment : CorrectedStream :=
  ofText "/*" { insertions := [⟨.closeParen, [.semicolon], 1, none, false⟩] }

/-- The stream is rewound after a fault and in the middle of the insertion. The stale place of the
queued semicolon does not show. -/
theorem replies_rewind_openComment :
    Driven "/*" openComment.next.2.next.2 ∧ openComment.next.2.next.2.pending = [.semicolon] ∧
      openComment.next.2.next.2.rewind.replies 4 = openComment.replies 4 := by
  have hdriven : Driven "/*" openComment.next.2.next.2 := .next (.next (.start _))
  refine ⟨hdriven, by cbv, ?_⟩
  rw [hdriven.replies_rewind]
  have hlog : openComment.next.2.next.2.log.resetConsumed = openComment.log := by cbv
  rw [hlog]
  rfl

end CorrectedStream
end SyntaxRecovery
