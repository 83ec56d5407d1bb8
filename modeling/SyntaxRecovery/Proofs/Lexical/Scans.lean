import SyntaxRecovery.Proofs.Lexical.Extent

/-! A whole scan as a chain of single steps. A step depends on the source and on the place where it
starts, not on what was read before. -/
namespace SyntaxRecovery.Scanner

/-- A step that finds a token leaves the source alone and goes forward in it. -/
structure Steps (s t : Scanner) (kind : TokenKind) : Prop where
  source_eq : t.source = s.source
  position_le_start : s.position ≤ t.tokenStart
  start_le : t.tokenStart ≤ t.position
  start_lt : kind ≠ .endOfSource → t.tokenStart < t.position
  position_le_length : t.position ≤ s.source.length

theorem length_rest (s : Scanner) : s.place.rest.length = s.source.length - s.position := by
  rw [s.place.rest_eq, List.length_drop]
  rfl

theorem next_steps {s t : Scanner} {kind : TokenKind} (h : s.next = (.ok kind, t))
    (hs : s.position ≤ s.source.length) : s.Steps t kind := by
  have hrest := s.length_rest
  unfold next at h
  split at h
  · cases h
  · next length hl =>
    have hskip := Trivia.skip_bounds hl
    dsimp only at h
    split at h
    · cases h
      constructor <;> simp only [position, tokenStart, Cursor.advance, ne_eq, not_true_eq_false,
        false_implies] at * <;> omega
    · next first rest hr =>
      have hlen : s.place.rest.length - length = rest.length + 1 := by
        simpa [Cursor.advance] using congrArg List.length hr
      split at h
      · next kind' n hread =>
        have hpos := Lexeme.read_pos hread
        have hle := Lexeme.read_extent_le first rest
        rw [hread] at hle
        simp only [Reading.extent] at hle
        cases h
        constructor <;> simp only [position, tokenStart, Cursor.advance] at * <;> omega
      · cases h
      · cases h

theorem next_congr {s t u : Scanner} {kind : TokenKind} (hsource : s.source = t.source)
    (hplace : s.position = t.position) (h : s.next = (.ok kind, u)) : t.next = (.ok kind, u) := by
  obtain ⟨source, _, place⟩ := s
  obtain ⟨_, _, place'⟩ := t
  obtain rfl : source = _ := hsource
  obtain rfl : place = place' := Cursor.ext hplace
  simp only [next] at h ⊢
  -- Both steps are the same from here on, but for where a failed one leaves its scanner.
  split at h
  · cases h
  · exact h

/-- The scanner behind `skipped` bytes and `length` more that were read. -/
def pass (s : Scanner) (skipped length : Nat) : Scanner :=
  { s with opening := s.place.advance skipped, place := (s.place.advance skipped).advance length }

/-- A step depends on what is read behind the blanks and comments. -/
theorem next_of_read {s : Scanner} {first : UInt8} {rest : Bytes} {n : Nat}
    (hskip : Trivia.skip 0 s.place.rest = .ok n) (hdrop : s.place.rest.drop n = first :: rest) :
    s.next = match Lexeme.read first rest with
      | .token kind length => (.ok kind, s.pass n length)
      | .failed fault offset length =>
        (.error (.lexical ⟨fault, s.position + n + offset⟩), s.pass n length)
      | .midCharacter => (.error .midCharacter, s.pass n 0) := by
  unfold next
  split
  · next h => cases hskip.symm.trans h
  · next h =>
    cases hskip.symm.trans h
    dsimp only
    split
    · next hr => cases hdrop.symm.trans hr
    · next hr =>
      cases hdrop.symm.trans hr
      cases Lexeme.read first rest <;> rfl

/-- A step fails in a comment without an end, at a reading that fails, or inside a character. -/
theorem next_error_cases {s t : Scanner} {failure : ScanFailure}
    (h : s.next = (.error failure, t)) :
    (∃ n, Trivia.skip 0 s.place.rest = .error n ∧
      failure = .lexical ⟨.unterminatedComment, s.position + n⟩ ∧
      t = { s with place := s.place.finish }) ∨
    ∃ n first rest, Trivia.skip 0 s.place.rest = .ok n ∧ s.place.rest.drop n = first :: rest ∧
      ((∃ fault offset length, Lexeme.read first rest = .failed fault offset length ∧
        failure = .lexical ⟨fault, s.position + n + offset⟩ ∧ t = s.pass n length) ∨
      Lexeme.read first rest = .midCharacter ∧ failure = .midCharacter ∧ t = s.pass n 0) := by
  unfold next at h
  split at h
  · next n hskip =>
    cases h
    exact .inl ⟨n, hskip, rfl, rfl⟩
  · next n hskip =>
    dsimp only at h
    split at h
    · cases h
    · next first rest hdrop =>
      refine .inr ⟨n, first, rest, hskip, hdrop, ?_⟩
      split at h
      · cases h
      · next fault offset length hread =>
        cases h
        exact .inl ⟨fault, offset, length, hread, rfl, rfl⟩
      · next hread =>
        cases h
        exact .inr ⟨hread, rfl, rfl⟩

/-- From the scanner on there are `tokens`, and then `last` at the end of the source. -/
inductive Scans : Scanner → List Token → Token → Prop
  | finish {s t : Scanner} (h : s.next = (.ok .endOfSource, t)) :
    Scans s [] (t.token .endOfSource)
  | step {s t : Scanner} {kind : TokenKind} {tokens : List Token} {last : Token}
    (h : s.next = (.ok kind, t)) (hk : kind ≠ .endOfSource) (rest : Scans t tokens last) :
    Scans s (t.token kind :: tokens) last

theorem collect_eq_ok_iff {s : Scanner} {found all : List Token} : s.collect found = .ok all ↔
    ∃ tokens last, s.Scans tokens last ∧ all = found.reverse ++ tokens ++ [last] := by
  fun_induction collect found s with
  | case1 found s failure t h =>
    simp only [reduceCtorEq, false_iff, not_exists, not_and]
    rintro tokens last hs
    cases hs with
    | finish h' => cases h.symm.trans h'
    | step h' => cases h.symm.trans h'
  | case2 found s t h found' =>
    constructor
    · intro ha
      cases ha
      exact ⟨[], _, .finish h, by simp [found']⟩
    · rintro ⟨tokens, last, hs, rfl⟩
      cases hs with
      | finish h' =>
        obtain ⟨-, rfl⟩ := Prod.mk.inj (h.symm.trans h')
        simp [found']
      | step h' hk =>
        obtain ⟨hk', -⟩ := Prod.mk.inj (h.symm.trans h')
        exact absurd (Except.ok.inj hk').symm hk
  | case3 found s kind t h found' hk ih =>
    rw [ih]
    constructor
    · rintro ⟨tokens, last, hs, rfl⟩
      exact ⟨_, last, .step h hk hs, by simp [found']⟩
    · rintro ⟨tokens, last, hs, rfl⟩
      cases hs with
      | finish h' =>
        obtain ⟨hk', -⟩ := Prod.mk.inj (h.symm.trans h')
        exact absurd (Except.ok.inj hk') hk
      | step h' hk' rest =>
        obtain ⟨hkind, rfl⟩ := Prod.mk.inj (h.symm.trans h')
        obtain rfl := Except.ok.inj hkind
        exact ⟨_, last, rest, by simp [found']⟩

namespace Scans
variable {s t : Scanner} {tokens before after : List Token} {token last : Token}

theorem congr (hs : s.Scans tokens last) (hsource : s.source = t.source)
    (hplace : s.position = t.position) : t.Scans tokens last := by
  cases hs with
  | finish h => exact .finish (next_congr hsource hplace h)
  | step h hk rest => exact .step (next_congr hsource hplace h) hk rest

/-- Tokens hold at least one byte each and follow each other in the source. -/
theorem ordered (hs : s.Scans tokens last) (hplace : s.position ≤ s.source.length) :
    (∀ token ∈ tokens, s.position ≤ token.span.start ∧ token.span.start < token.span.stop ∧
      token.span.stop ≤ s.source.length) ∧
      tokens.Pairwise (fun a b => a.span.stop ≤ b.span.start) := by
  induction hs with
  | finish => simp
  | @step s t kind tokens last h hk rest ih =>
    have hstep := next_steps h hplace
    obtain ⟨hbounds, hpairs⟩ := ih (by rw [hstep.source_eq]; exact hstep.position_le_length)
    refine ⟨List.forall_mem_cons.mpr ⟨⟨hstep.position_le_start, hstep.start_lt hk,
      hstep.position_le_length⟩, fun token ht => ?_⟩, List.pairwise_cons.mpr
        ⟨fun token ht => (hbounds token ht).1, hpairs⟩⟩
    obtain ⟨h1, h2, h3⟩ := hbounds token ht
    rw [hstep.source_eq] at h3
    exact ⟨Nat.le_trans hstep.position_le_start (Nat.le_trans hstep.start_le h1), h2, h3⟩

theorem kind_ne (hs : s.Scans tokens last) (ht : token ∈ tokens) : token.kind ≠ .endOfSource := by
  induction hs with
  | finish => cases ht
  | step _ hk _ ih =>
    rcases List.mem_cons.mp ht with rfl | ht
    · exact hk
    · exact ih ht

/-- Where some tokens end, the scan finds the tokens after them, however it came there. -/
theorem resume (hs : s.Scans (before ++ token :: after) last)
    (hplace : s.position ≤ s.source.length)
    (hsource : t.source = s.source) (ht : t.position = token.span.stop) : t.Scans after last := by
  induction before generalizing s with
  | nil =>
    cases hs with
    | step h _ rest => exact rest.congr ((next_steps h hplace).source_eq.trans hsource.symm) ht.symm
  | cons first before ih =>
    cases hs with
    | step h _ rest =>
      have hstep := next_steps h hplace
      exact ih rest (by rw [hstep.source_eq]; exact hstep.position_le_length)
        (hsource.trans hstep.source_eq.symm)

end Scans
end SyntaxRecovery.Scanner
