import SyntaxRecovery.Proofs.Stream.Calls

/-! What a corrected stream hands out up to the end of its source, put together from its calls. -/
namespace SyntaxRecovery.CorrectedStream

/-- Drained, the stream gives the tokens `out` and leaves the log `after`, however often it may
still come back to the end of the source. -/
def Delivers (s : CorrectedStream) (out : List Token) (after : EditLog) : Prop :=
  ∀ returns found, ∃ t, s.collect s.scanner.source.length returns found =
    (.ok (found.reverse ++ out), t) ∧ t.log = after

/-- The next call gives the first token of `out`, and the rest is delivered after it. -/
def AnswersWith (s : CorrectedStream) (r : Bool) (out : List Token) (after : EditLog) : Prop :=
  ∃ token t tail, s.Answers r token t ∧ out = token :: tail ∧
    (token.kind = .endOfSource ∧ tail = [] ∧ t.log = after ∨
      token.kind ≠ .endOfSource ∧ t.Delivers tail after)

variable {s : CorrectedStream} {r : Bool} {out : List Token} {after : EditLog}

/-- With nothing pending, what the next call starts is what is delivered. -/
theorem AnswersWith.delivers (h : s.AnswersWith false out after) (hp : s.pending = [])
    (hs : s.Inside) (hlog : s.log.HoldsBytes) : s.Delivers out after := by
  obtain ⟨token, t, tail, ha, rfl, ⟨hk, rfl, hafter⟩ | ⟨hk, ht⟩⟩ := h
  · exact fun returns found =>
      ⟨t, collect_of_last _ returns found (next_eq_ok hp ha) hk, hafter⟩
  · intro returns found
    obtain ⟨u, hu, hafter⟩ := ht returns (token :: found)
    refine ⟨u, ?_, hafter⟩
    rw [collect_of_progress returns found (next_eq_ok hp ha) hk
      (ha.progress hs (hlog.noneEmptyAt _) hk), ← (ha.continues hs).source_eq, hu]
    simp

/-- A removed stretch gives no token of its own. -/
theorem AnswersWith.of_removal {kind : TokenKind} {scanner : Scanner} {edit : Removal} {index : Nat}
    (hi : s.insertDue? r = none) (hn : s.scanner.next = (.ok kind, scanner))
    (hp : s.log.replacementCovering? s.editFloor (scanner.token kind).span = none)
    (hm : s.log.removalCovering? s.editFloor (scanner.token kind).span = some (edit, index))
    (hr : edit.start ≤ edit.last)
    (h : (s.pastRemoval scanner edit index).AnswersWith true out after) :
    s.AnswersWith r out after := by
  obtain ⟨token, t, tail, ha, hout, hrest⟩ := h
  exact ⟨token, t, tail, .removal hi hn hp hm hr ha, hout, hrest⟩

/-- The kinds an edit leaves pending are handed out one by one before anything else. -/
theorem delivers_emit {origin : TokenOrigin} {offset : Nat} {kind : TokenKind}
    {others : List TokenKind} (hk : .endOfSource ∉ others)
    (h : ∀ last, { s with
      pending := [], pendingOrigin := origin, pendingOffset := offset, last }.Delivers out after) :
    (emit s origin offset kind others).2.Delivers
      (others.map (Token.synthetic · (.emptyAt offset) origin) ++ out) after := by
  induction others generalizing kind with
  | nil => exact h _
  | cons next others ih =>
    rw [List.mem_cons, not_or] at hk
    intro returns found
    let token := Token.synthetic next (.emptyAt offset) origin
    have hnext : (emit s origin offset kind (next :: others)).2.next =
        (.ok token, (emit s origin offset next others).2) := rfl
    have hprogress : Progress s.scanner.source.length (emit s origin offset kind (next :: others)).2
        (emit s origin offset next others).2 :=
      .inr ⟨rfl, .inr ⟨rfl, Nat.lt_succ_self _⟩⟩
    obtain ⟨t, ht, hafter⟩ := @ih next hk.2 returns (token :: found)
    refine ⟨t, ?_, hafter⟩
    refine (collect_of_progress returns found hnext (Ne.symm hk.1) hprogress).trans (ht.trans ?_)
    simp [token]

/-- An answer that begins an edit's tokens. -/
theorem AnswersWith.of_emit {origin : TokenOrigin} {offset : Nat} {kind : TokenKind}
    {others : List TokenKind} {t : CorrectedStream}
    (ha : s.Answers r (emit t origin offset kind others).1 (emit t origin offset kind others).2)
    (hk : .endOfSource ∉ kind :: others)
    (h : ∀ last, { t with
      pending := [], pendingOrigin := origin, pendingOffset := offset, last }.Delivers out after) :
    s.AnswersWith r
      ((kind :: others).map (Token.synthetic · (.emptyAt offset) origin) ++ out) after := by
  rw [List.mem_cons, not_or] at hk
  exact ⟨_, _, _, ha, rfl, .inr ⟨Ne.symm hk.1, delivers_emit hk.2 h⟩⟩

end SyntaxRecovery.CorrectedStream
