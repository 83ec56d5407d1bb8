import Mathlib
import SyntaxRecovery.Proofs.Stream.Flags
import SyntaxRecovery.Proofs.Stream.Merge

/-! What the corrected stream hands out stays true to the source, whatever edits the log holds: it
goes forward, its source tokens are tokens that a scan finds there, and none of them holds a byte
that was replaced or removed. -/
namespace SyntaxRecovery

namespace EditLog
variable {log other : EditLog} {edits more : List Application} {size low middle high : Nat}

/-- The first and the last byte of each stretch that has been replaced or removed. -/
def consumedStretches (log : EditLog) : List (Nat × Nat) :=
  (log.replacements.filter (·.consumed)).map (fun edit => (edit.start, edit.last)) ++
    (log.removals.filter (·.consumed)).map fun edit => (edit.start, edit.last)

theorem exists_isConsumed_of_mem {stretch : Nat × Nat} (h : stretch ∈ log.consumedStretches) :
    ∃ edit, log.isConsumed edit ∧ log.stretch? edit = some stretch := by
  rcases List.mem_append.mp h with h | h
  · obtain ⟨edit, he, rfl⟩ := List.mem_map.mp h
    obtain ⟨hmem, hconsumed⟩ := List.mem_filter.mp he
    obtain ⟨index, hget⟩ := List.mem_iff_getElem?.mp hmem
    exact ⟨.replacement index, by simpa [isConsumed, hget] using hconsumed,
      by simp [stretch?, hget]⟩
  · obtain ⟨edit, he, rfl⟩ := List.mem_map.mp h
    obtain ⟨hmem, hconsumed⟩ := List.mem_filter.mp he
    obtain ⟨index, hget⟩ := List.mem_iff_getElem?.mp hmem
    exact ⟨.removal index, by simpa [isConsumed, hget] using hconsumed, by simp [stretch?, hget]⟩

/-- In a source of `size` bytes the stretches that `edits` replace or remove lie from `low` on and
before `high`. -/
def Between (log : EditLog) (edits : List Application) (size low high : Nat) : Prop :=
  ∀ edit ∈ edits, ∀ stretch ∈ log.stretch? edit,
    low ≤ stretch.1 ∧ min (stretch.2 + 1) size ≤ high

namespace Between

theorem nil (log : EditLog) (size low high : Nat) : log.Between [] size low high := nofun

theorem insertion (log : EditLog) (index size low high : Nat) :
    log.Between [.insertion index] size low high := by
  intro edit he stretch hs
  rw [List.mem_singleton.mp he] at hs
  cases hs

theorem single {edit : Application} {stretch : Nat × Nat} (hs : log.stretch? edit = some stretch)
    (hlow : low ≤ stretch.1) (hhigh : min (stretch.2 + 1) size ≤ high) :
    log.Between [edit] size low high := by
  intro edit he found hf
  rw [List.mem_singleton.mp he, hs] at hf
  obtain rfl := Option.some.inj hf
  exact ⟨hlow, hhigh⟩

theorem congr (h : log.Between edits size low high)
    (hs : ∀ edit, other.stretch? edit = log.stretch? edit) : other.Between edits size low high := by
  intro edit he stretch hstretch
  rw [hs] at hstretch
  exact h edit he stretch hstretch

theorem mono {low' high' : Nat} (h : log.Between edits size low high) (hlow : low' ≤ low)
    (hhigh : high ≤ high') : log.Between edits size low' high' := by
  intro edit he stretch hs
  have := h edit he stretch hs
  omega

theorem append (h : log.Between edits size low high) (h' : log.Between more size low high) :
    log.Between (edits ++ more) size low high := by
  intro edit he
  exact (List.mem_append.mp he).elim (h edit) (h' edit)

end Between
end EditLog

namespace CorrectedStream
variable {s t : CorrectedStream} {r : Bool} {edits : List Application} {token : Token}
  {answer : Except StreamFailure Token} {source : Bytes}

/-- No token to come starts before this offset. -/
def frontier (s : CorrectedStream) : Nat :=
  if s.pending = [] then s.position else s.pendingOffset

/-- The synthetic kinds that are pending belong to a place that the scan has come to. -/
structure Ready (s : CorrectedStream) : Prop where
  inside : s.Inside
  offset : s.pending ≠ [] → s.pendingOffset ≤ s.position
  origin : s.pending ≠ [] → s.pendingOrigin ≠ .source

theorem Ready.frontier_le (h : s.Ready) : s.frontier ≤ s.position := by
  unfold frontier
  split
  · exact Nat.le_refl _
  · next hp => exact h.offset hp

/-- The ways to hand out a token: it is what a scan of the source finds from an `offset` on, behind
all that the call replaces or removes, or it is synthetic and holds nothing. -/
inductive Gives (source : Bytes) (s : CorrectedStream) (edits : List Application) :
    Token → CorrectedStream → Prop
  | source {t : CorrectedStream} {offset : Nat} {kind : TokenKind} {scanner : Scanner}
    (hfrom : s.position ≤ offset) (hinside : offset ≤ source.length)
    (hn : ((Scanner.ofBytes source).seek offset).next = (.ok kind, scanner))
    (hbetween : s.log.Between edits source.length s.position offset)
    (hposition : t.position = scanner.position) (hpending : t.pending = []) :
    Gives source s edits (scanner.token kind) t
  | synthetic {t : CorrectedStream} {offset : Nat} {kind : TokenKind} {origin : TokenOrigin}
    (horigin : origin ≠ .source) (hfrom : s.frontier ≤ offset) (hto : offset ≤ t.position)
    (hbetween : s.log.Between edits source.length s.position t.position)
    (hoffset : t.pendingOffset = offset) (hpending : t.pendingOrigin = origin) :
    Gives source s edits (Token.synthetic kind (.emptyAt offset) origin) t

theorem Applies.gives (h : s.Applies r edits answer t) (ha : answer = .ok token)
    (hsource : s.scanner.source = source) (hs : s.Inside) (hp : s.pending = []) :
    Gives source s edits token t := by
  have hfrontier : s.frontier = s.position := if_pos hp
  induction h with
  | @insertion s r edit index hd =>
    obtain rfl := Except.ok.inj ha
    exact .synthetic (by simp) (Nat.le_of_eq hfrontier) (Nat.le_refl _)
      (.insertion _ _ _ _ _) rfl rfl
  | failure => cases ha
  | @source s r kind scanner hd hn hp' hm =>
    obtain rfl := Except.ok.inj ha
    subst hsource
    refine .source (Nat.le_refl _) hs ?_ (.nil _ _ _ _) rfl hp
    exact Scanner.next_congr (s := s.scanner) rfl (Nat.min_eq_left hs).symm hn
  | @replacement s r kind scanner edit index hd hn hp' =>
    obtain rfl := Except.ok.inj ha
    subst hsource
    have hstep := hs.steps hn
    have hc := (EditLog.replacementCovering?_some hp').2
    have hstart : s.position ≤ edit.start := Nat.le_trans (Nat.le_max_left _ _) hc.1
    have hend : ((s.readOn scanner).resumeAfter edit.last).position =
        min (edit.last + 1) s.scanner.source.length := by
      rw [position_resumeAfter, show (s.readOn scanner).scanner.source = _ from hstep.source_eq]
    have hto := Nat.le_trans hstep.start_le (position_le_resumeAfter hs hn hc)
    exact .synthetic (by simp) (hfrontier ▸ hstep.position_le_start) hto
      (.single (EditLog.stretch?_of_replacementCovering? hp') hstart (Nat.le_of_eq hend.symm))
      rfl rfl
  | @removal s t r kind scanner edit index edits answer hd hn hp' hm hr rest ih =>
    have hpast := forward_pastRemoval hs hn hm
    have hc := (EditLog.removalCovering?_some hm).2
    have hstart : s.position ≤ edit.start := Nat.le_trans (Nat.le_max_left _ _) hc.1
    have hend :
        (s.pastRemoval scanner edit index).position = min (edit.last + 1) source.length := by
      rw [← hsource, ← hpast.source_eq]
      rfl
    have hfirst : s.log.Between [.removal index] source.length s.position
        (s.pastRemoval scanner edit index).position :=
      .single (EditLog.stretch?_of_removalCovering? hm) hstart (Nat.le_of_eq hend.symm)
    have hfrontier' : (s.pastRemoval scanner edit index).frontier =
        (s.pastRemoval scanner edit index).position := if_pos hp
    have hrest := ih ha (hpast.source_eq.trans hsource) hpast.inside hp hfrontier'
    have hboth {high : Nat} (hhigh : (s.pastRemoval scanner edit index).position ≤ high)
        (h : (s.pastRemoval scanner edit index).log.Between edits source.length
          (s.pastRemoval scanner edit index).position high) :
        s.log.Between (.removal index :: edits) source.length s.position high := by
      have hmore := (h.congr fun edit => (hpast.stretch?_eq edit).symm).mono hpast.position_le
        (Nat.le_refl high)
      exact (hfirst.mono (Nat.le_refl _) hhigh).append hmore
    cases hrest with
    | source hfrom hinside hn hbetween hposition hpending =>
      exact .source (Nat.le_trans hpast.position_le hfrom) hinside hn (hboth hfrom hbetween)
        hposition hpending
    | synthetic horigin hfrom hto hbetween hoffset hpending =>
      rw [hfrontier'] at hfrom
      exact .synthetic horigin (hfrontier ▸ Nat.le_trans hpast.position_le hfrom) hto
        (hboth (rest.forward hpast.inside).position_le hbetween) hoffset hpending
  | endless => cases ha

theorem Call.gives (h : s.Call edits answer t) (ha : answer = .ok token)
    (hsource : s.scanner.source = source) (hs : s.Ready) : Gives source s edits token t := by
  cases h with
  | pending hp =>
    obtain rfl := Except.ok.inj ha
    have hne : s.pending ≠ [] := by simp [hp]
    exact .synthetic (hs.origin hne) (Nat.le_of_eq (if_neg hne)) (hs.offset hne)
      (.nil _ _ _ _) rfl rfl
  | reading hp h => exact h.gives ha hsource hs.inside hp

theorem Gives.ready (h : Gives source s edits token t) (ht : t.Inside) : t.Ready := by
  cases h with
  | source _ _ _ _ _ hpending => exact ⟨ht, absurd hpending, absurd hpending⟩
  | synthetic horigin _ hto _ hoffset hpending =>
    exact ⟨ht, fun _ => hoffset ▸ hto, fun _ => hpending ▸ horigin⟩

theorem Applies.pending_eq_nil {failure : StreamFailure} (h : s.Applies r edits answer t)
    (ha : answer = .error failure) (hp : s.pending = []) : t.pending = [] := by
  induction h with
  | failure => exact hp
  | removal _ _ _ _ _ _ ih => exact ih ha hp
  | endless => exact hp
  | insertion => cases ha
  | source => cases ha
  | replacement => cases ha

theorem Call.ready (h : s.Call edits answer t) (hs : s.Ready) : t.Ready := by
  have ht : t.Inside := (h.forward hs.inside).inside
  cases hanswer : answer with
  | ok token => exact (h.gives hanswer rfl hs).ready ht
  | error failure =>
    cases h with
    | pending => cases hanswer
    | reading hp h =>
      have hpending := h.pending_eq_nil hanswer hp
      exact ⟨ht, absurd hpending, absurd hpending⟩

/-- What holds of a token however it is handed out holds of all that a run hands out. -/
theorem Run.forall_of_gives {P : Token → Prop} {answers : List (Except StreamFailure Token)}
    (h : s.Run answers edits t) (hs : s.Ready) (hsource : s.scanner.source = source)
    (hP : ∀ (s t : CorrectedStream) (edits : List Application) (token : Token),
      Gives source s edits token t → t.position ≤ source.length → P token) :
    ∀ token, .ok token ∈ answers → P token := by
  induction h with
  | nil => exact fun _ hmem => absurd hmem List.not_mem_nil
  | @cons s t u answer answers edits more call rest ih =>
    have hgo := call.forward hs.inside
    have hsource' : t.scanner.source = source := hgo.source_eq.trans hsource
    intro token hmem
    rcases List.mem_cons.mp hmem with hfirst | hlater
    · exact hP s t edits token (call.gives hfirst.symm hsource hs) (hsource' ▸ hgo.inside)
    · exact ih (call.ready hs) hsource' token hlater

end CorrectedStream

/-- No byte of the token lies in the stretch. -/
def Token.Avoids (token : Token) (stretch : Nat × Nat) : Prop :=
  ∀ offset, token.span.start ≤ offset → offset < token.span.stop →
    ¬ (stretch.1 ≤ offset ∧ offset ≤ stretch.2)

/-- The token is the one that a scan of `text` finds next from a place behind the source tokens
`before`, with the text that stands there. -/
def Token.FoundBehind (text : String) (before : List Token) (token : Token) : Prop :=
  ∃ offset scanner, (∀ earlier ∈ before, earlier.origin = .source → earlier.span.stop ≤ offset) ∧
    ((Scanner.ofText text).seek offset).next = (.ok token.kind, scanner) ∧
    token.span = ⟨scanner.tokenStart, scanner.position⟩ ∧
    Bytes.ofText token.text =
      ((Bytes.ofText text).drop token.span.start).take (token.span.stop - token.span.start)

/-- Tokens that go forward in `text`, where those of the source are found in it, follow one another
and avoid the stretches `cut`, and all others hold nothing. -/
structure Faithful (text : String) (tokens : List Token) (cut : List (Nat × Nat)) : Prop where
  forward : tokens.Pairwise fun a b => a.span.start ≤ b.span.start
  follow : tokens.Pairwise fun a b =>
    a.origin = .source → b.origin = .source → a.span.stop ≤ b.span.start
  found : ∀ before token after, tokens = before ++ token :: after → token.origin = .source →
    token.FoundBehind text before
  synthetic : ∀ token ∈ tokens, token.origin ≠ .source → token.span.start = token.span.stop
  avoids : ∀ token ∈ tokens, token.origin = .source → ∀ stretch ∈ cut, token.Avoids stretch

theorem split_snoc {α : Type} {P : List α → α → Prop} {l : List α} {a : α}
    (h : ∀ before b after, l = before ++ b :: after → P before b) (ha : P l a) :
    ∀ before b after, l ++ [a] = before ++ b :: after → P before b := by
  intro before b after heq
  rcases after.eq_nil_or_concat with rfl | ⟨after, last, rfl⟩
  · obtain ⟨rfl, hlast⟩ := List.append_inj' heq rfl
    obtain rfl : a = b := by simpa using hlast
    exact ha
  · have heq' : l ++ [a] = (before ++ b :: after) ++ [last] := by simpa using heq
    exact h before b after (List.append_inj' heq' rfl).1

theorem Faithful.snoc {text : String} {tokens : List Token} {token : Token}
    {cut more : List (Nat × Nat)} (h : Faithful text tokens cut)
    (hforward : ∀ earlier ∈ tokens, earlier.span.start ≤ token.span.start)
    (hfollow : ∀ earlier ∈ tokens, earlier.origin = .source → earlier.span.stop ≤ token.span.start)
    (hfound : token.origin = .source → token.FoundBehind text tokens)
    (hsynthetic : token.origin ≠ .source → token.span.start = token.span.stop)
    (hbefore : ∀ earlier ∈ tokens, earlier.origin = .source → ∀ stretch ∈ more,
      earlier.Avoids stretch)
    (havoids : token.origin = .source → ∀ stretch ∈ cut ++ more, token.Avoids stretch) :
    Faithful text (tokens ++ [token]) (cut ++ more) where
  forward := by
    apply List.pairwise_append.mpr ⟨h.forward, List.pairwise_singleton _ _, ?_⟩
    intro earlier he later hl
    rw [List.mem_singleton.mp hl]
    exact hforward earlier he
  follow := by
    apply List.pairwise_append.mpr ⟨h.follow, List.pairwise_singleton _ _, ?_⟩
    intro earlier he later hl horigin _
    rw [List.mem_singleton.mp hl]
    exact hfollow earlier he horigin
  found := by
    apply split_snoc
    · exact h.found
    · exact hfound
  synthetic := List.forall_mem_append.mpr ⟨h.synthetic, List.forall_mem_singleton.mpr hsynthetic⟩
  avoids := by
    intro other ho horigin stretch hs
    rcases List.mem_append.mp ho with ho | ho
    · exact (List.mem_append.mp hs).elim (h.avoids other ho horigin stretch)
        (hbefore other ho horigin stretch)
    · obtain rfl := List.mem_singleton.mp ho
      exact havoids horigin stretch hs

theorem Faithful.mono {text : String} {tokens : List Token} {cut less : List (Nat × Nat)}
    (h : Faithful text tokens cut) (hless : ∀ stretch ∈ less, stretch ∈ cut) :
    Faithful text tokens less :=
  { h with avoids := fun token ht ho stretch hs => h.avoids token ht ho stretch (hless stretch hs) }

/-- A token avoids what starts behind it. -/
theorem Token.Avoids.of_stop_le {token : Token} {stretch : Nat × Nat}
    (h : token.span.stop ≤ stretch.1) : token.Avoids stretch := by
  rintro offset hstart hstop ⟨hfirst, -⟩
  omega

/-- A token avoids what ends before it. -/
theorem Token.Avoids.of_min_le {token : Token} {stretch : Nat × Nat} {size : Nat}
    (hstretch : min (stretch.2 + 1) size ≤ token.span.start) (hsize : token.span.stop ≤ size) :
    token.Avoids stretch := by
  rintro offset hstart hstop ⟨-, hlast⟩
  omega

namespace CorrectedStream
variable {s t : CorrectedStream} {edits more : List Application} {token : Token}
  {tokens : List Token} {source : Bytes} {text : String} {log : EditLog}

/-- A scan from an offset in the source stays behind it. -/
theorem next_seek {offset : Nat} {kind : TokenKind} {scanner : Scanner}
    (hinside : offset ≤ source.length)
    (hn : ((Scanner.ofBytes source).seek offset).next = (.ok kind, scanner)) :
    offset ≤ scanner.tokenStart ∧ scanner.tokenStart ≤ scanner.position ∧
      scanner.position ≤ source.length := by
  have hseek : ((Scanner.ofBytes source).seek offset).position = offset := Nat.min_eq_left hinside
  have hstep := Scanner.next_steps hn (Nat.min_le_right _ _)
  exact ⟨hseek ▸ hstep.position_le_start, hstep.start_le, hstep.position_le_length⟩

namespace Gives

/-- Where a token starts nothing that is still to come starts before it. -/
theorem start_le (h : Gives source s more token t) (hs : s.Ready) :
    s.frontier ≤ token.span.start ∧ token.span.start ≤ t.frontier := by
  cases h with
  | @source _ offset kind scanner hfrom hinside hn hbetween hposition hpending =>
    obtain ⟨hstart, hstop, -⟩ := next_seek hinside hn
    have hfrontier : t.frontier = scanner.position := (if_pos hpending).trans hposition
    exact ⟨Nat.le_trans hs.frontier_le (Nat.le_trans hfrom hstart), hfrontier ▸ hstop⟩
  | synthetic horigin hfrom hto hbetween hoffset hpending =>
    refine ⟨hfrom, ?_⟩
    unfold frontier
    split
    · exact hto
    · exact Nat.le_of_eq hoffset.symm

/-- A source token that is handed out leaves the frontier behind it. -/
theorem stop_le (h : Gives source s more token t) (ho : token.origin = .source) :
    token.span.stop ≤ t.frontier := by
  cases h with
  | source hfrom hinside hn hbetween hposition hpending =>
    exact Nat.le_of_eq ((if_pos hpending).trans hposition).symm
  | synthetic horigin => exact absurd ho horigin

theorem between (h : Gives source s more token t) :
    s.log.Between more source.length s.position t.position := by
  cases h with
  | source hfrom hinside hn hbetween hposition hpending =>
    obtain ⟨hstart, hstop, -⟩ := next_seek hinside hn
    exact hbetween.mono (Nat.le_refl _) (hposition ▸ Nat.le_trans hstart hstop)
  | synthetic horigin hfrom hto hbetween => exact hbetween

theorem synthetic_empty (h : Gives source s more token t) (ho : token.origin ≠ .source) :
    token.span.start = token.span.stop := by
  cases h with
  | source => exact absurd rfl ho
  | synthetic => rfl

/-- A source token holds nothing that has been cut before it. -/
theorem avoids (h : Gives source s more token t) (ho : token.origin = .source)
    {stretch : Nat × Nat} (hs : min (stretch.2 + 1) source.length ≤ s.position ∨
      ∃ edit ∈ more, s.log.stretch? edit = some stretch) : token.Avoids stretch := by
  cases h with
  | @source _ offset kind scanner hfrom hinside hn hbetween hposition hpending =>
    obtain ⟨hstart, -, hstop⟩ := next_seek hinside hn
    have hcut : min (stretch.2 + 1) source.length ≤ offset := by
      rcases hs with hs | ⟨edit, he, hs⟩
      · exact Nat.le_trans hs hfrom
      · exact (hbetween edit he stretch hs).2
    exact .of_min_le (Nat.le_trans hcut hstart) hstop
  | synthetic horigin => exact absurd ho horigin

theorem found {before : List Token} (h : Gives (Bytes.ofText text) s more token t)
    (hs : s.Ready) (ho : token.origin = .source)
    (hbefore : ∀ earlier ∈ before, earlier.origin = .source → earlier.span.stop ≤ s.frontier) :
    token.FoundBehind text before := by
  cases h with
  | @source _ offset kind scanner hfrom hinside hn hbetween hposition hpending =>
    refine ⟨offset, scanner, ?_, hn, rfl, ?_⟩
    · intro earlier he horigin
      exact Nat.le_trans (hbefore earlier he horigin) (Nat.le_trans hs.frontier_le hfrom)
    · exact Scanner.ofText_token_text hn (Nat.min_le_right _ _) rfl
  | synthetic horigin => exact absurd ho horigin

/-- What is handed out stands in the source. -/
theorem span_le (h : Gives source s more token t) (ht : t.position ≤ source.length) :
    token.span.start ≤ source.length ∧ token.span.stop ≤ source.length := by
  cases h with
  | source hfrom hinside hn hbetween hposition hpending =>
    obtain ⟨-, hstart, hstop⟩ := next_seek hinside hn
    exact ⟨Nat.le_trans hstart hstop, hstop⟩
  | synthetic horigin hfrom hto hbetween hoffset hpending =>
    exact ⟨Nat.le_trans hto ht, Nat.le_trans hto ht⟩

theorem isMissingIdentifier_iff (h : Gives source s more token t) :
    token.isMissingIdentifier = true ↔ token.kind = .identifier ∧ token.origin ≠ .source := by
  cases h with
  | source => simp [Token.isMissingIdentifier, Token.isSynthetic, Scanner.token]
  | synthetic horigin => simp +contextual [Token.isMissingIdentifier, Token.isSynthetic,
      Token.synthetic, horigin]

end Gives

theorem Ready.start (text : String) (log : EditLog) : (ofText text log).Ready :=
  ⟨Nat.zero_le _, absurd rfl, absurd rfl⟩

/-- In a source of less than 4 GiB the calls hand out offsets of 32 bits. -/
theorem fitsWords_of_calls {n : Nat} {answers : List (Except StreamFailure Token)}
    (hsize : (Bytes.ofText text).length < Nat.pow 2 32)
    (h : (ofText text log).calls n = (answers, t)) :
    ∀ token, .ok token ∈ answers → token.span.FitsWords := by
  obtain ⟨-, edits, hrun⟩ := calls_eq_iff.mp h
  apply hrun.forall_of_gives (P := fun token => token.span.FitsWords) (.start text log) rfl
  intro s t edits token hgives ht
  obtain ⟨hstart, hstop⟩ := hgives.span_le ht
  exact ⟨Nat.lt_of_le_of_lt hstart hsize, Nat.lt_of_le_of_lt hstop hsize⟩

/-- Of all identifiers that the calls hand out, those that an edit has made up are the missing
ones. -/
theorem isMissingIdentifier_iff_of_calls {n : Nat} {answers : List (Except StreamFailure Token)}
    (h : (ofText text log).calls n = (answers, t)) (hmem : .ok token ∈ answers) :
    token.isMissingIdentifier = true ↔ token.kind = .identifier ∧ token.origin ≠ .source := by
  obtain ⟨-, edits, hrun⟩ := calls_eq_iff.mp h
  exact hrun.forall_of_gives (.start text log) rfl
    (fun s t edits token hgives _ => hgives.isMissingIdentifier_iff) token hmem

/-- The stream `s` has handed out `tokens` and applied `edits` of `log`. -/
structure Kept (text : String) (log : EditLog) (tokens : List Token) (edits : List Application)
    (s : CorrectedStream) : Prop where
  faithful : Faithful text tokens (edits.filterMap log.stretch?)
  source_eq : s.scanner.source = Bytes.ofText text
  ready : s.Ready
  stretch?_eq : ∀ edit, s.log.stretch? edit = log.stretch? edit
  starts_le : ∀ token ∈ tokens, token.span.start ≤ s.frontier
  stops_le : ∀ token ∈ tokens, token.origin = .source → token.span.stop ≤ s.frontier
  behind : ∀ stretch ∈ edits.filterMap log.stretch?,
    min (stretch.2 + 1) (Bytes.ofText text).length ≤ s.position

theorem Kept.start : Kept text log [] [] (ofText text log) where
  faithful := ⟨.nil, .nil, by simp, by simp, by simp⟩
  source_eq := rfl
  ready := .start text log
  stretch?_eq := fun _ => rfl
  starts_le := nofun
  stops_le := nofun
  behind := nofun

theorem Kept.call (h : Kept text log tokens edits s) (call : s.Call more (.ok token) t) :
    Kept text log (tokens ++ [token]) (edits ++ more) t := by
  have hgo := call.forward h.ready.inside
  have hgives := call.gives rfl h.source_eq h.ready
  obtain ⟨hfrom, hto⟩ := hgives.start_le h.ready
  have hcut : ∀ stretch ∈ more.filterMap log.stretch?,
      (∃ edit ∈ more, s.log.stretch? edit = some stretch) ∧ s.position ≤ stretch.1 ∧
        min (stretch.2 + 1) (Bytes.ofText text).length ≤ t.position := by
    intro stretch hs
    obtain ⟨edit, he, hstretch⟩ := List.mem_filterMap.mp hs
    rw [← h.stretch?_eq] at hstretch
    exact ⟨⟨edit, he, hstretch⟩, hgives.between edit he stretch hstretch⟩
  have hgone := Nat.le_trans hfrom hto
  constructor
  case faithful =>
    rw [List.filterMap_append]
    apply h.faithful.snoc
    · intro earlier he
      exact Nat.le_trans (h.starts_le earlier he) hfrom
    · intro earlier he horigin
      exact Nat.le_trans (h.stops_le earlier he horigin) hfrom
    · intro horigin
      exact hgives.found h.ready horigin h.stops_le
    · exact hgives.synthetic_empty
    · intro earlier he horigin stretch hs
      have hstop := Nat.le_trans (h.stops_le earlier he horigin) h.ready.frontier_le
      exact .of_stop_le (Nat.le_trans hstop (hcut stretch hs).2.1)
    · intro horigin stretch hs
      apply hgives.avoids horigin
      exact (List.mem_append.mp hs).imp (h.behind stretch) fun hs => (hcut stretch hs).1
  case source_eq => exact hgo.source_eq.trans h.source_eq
  case ready => exact hgives.ready hgo.inside
  case stretch?_eq =>
    intro edit
    exact (hgo.stretch?_eq edit).trans (h.stretch?_eq edit)
  case starts_le =>
    rw [List.forall_mem_append, List.forall_mem_singleton]
    exact ⟨fun earlier he => Nat.le_trans (h.starts_le earlier he) hgone, hto⟩
  case stops_le =>
    rw [List.forall_mem_append, List.forall_mem_singleton]
    exact ⟨fun earlier he horigin => Nat.le_trans (h.stops_le earlier he horigin) hgone,
      hgives.stop_le⟩
  case behind =>
    rw [List.filterMap_append, List.forall_mem_append]
    exact ⟨fun stretch hs => Nat.le_trans (h.behind stretch hs) hgo.position_le,
      fun stretch hs => (hcut stretch hs).2.2⟩

/-- By induction on the calls to come. -/
theorem Kept.run {more : List Token} {further : List Application}
    (h : Kept text log tokens edits s) (hrun : s.Run (more.map .ok) further t) :
    Kept text log (tokens ++ more) (edits ++ further) t := by
  induction more generalizing s tokens edits further with
  | nil =>
    cases hrun
    simpa using h
  | cons token more ih =>
    cases hrun with
    | cons call rest =>
      have hnext := ih (h.call call) rest
      rwa [List.append_assoc, List.append_assoc] at hnext

/-- Whatever edits a log holds, as long as the calls do not fail their tokens are faithful to the
source, and what has been consumed is cut out of it. The source has less than 4 GiB, and so the
offsets of the tokens have 32 bits. -/
theorem faithful_of_calls {n : Nat} (hsize : (Bytes.ofText text).length < Nat.pow 2 32)
    (hfresh : log.Fresh) (hcalls : (ofText text log).calls n = (tokens.map .ok, s)) :
    Faithful text tokens s.log.consumedStretches ∧ ∀ token ∈ tokens, token.span.FitsWords := by
  obtain ⟨-, edits, hrun⟩ := calls_eq_iff.mp hcalls
  have hkept := Kept.start.run hrun
  constructor
  · apply hkept.faithful.mono
    intro stretch hs
    obtain ⟨edit, hconsumed, hstretch⟩ := EditLog.exists_isConsumed_of_mem hs
    have hcleared : log.isConsumed edit = false := hfresh.isConsumed_eq edit
    have happlied : edit ∈ edits := by
      have hflag := hrun.isConsumed_eq (Nat.zero_le _) edit
      rw [hconsumed, show (ofText text log).log.isConsumed edit = false from hcleared] at hflag
      simpa using hflag
    rw [hkept.stretch?_eq] at hstretch
    exact List.mem_filterMap.mpr ⟨edit, happlied, hstretch⟩
  · intro token ht
    exact fitsWords_of_calls hsize hcalls token (List.mem_map_of_mem ht)

/-- A removal that ends in a blank, and an insertion after the last byte. -/
def trimmingEdits : EditLog where
  insertions := [⟨.comma, [], 2, none, false⟩]
  removals := [⟨0, 1, false⟩]

/-- The first tokens of `a b` then. -/
def trimmedTokens : List Token :=
  [⟨.identifier, ⟨2, 3⟩, "b", .source⟩, ⟨.comma, ⟨3, 3⟩, "", .inserted⟩]

theorem faithful_trimmedTokens :
    (Bytes.ofText "a b").length < Nat.pow 2 32 ∧ trimmingEdits.Fresh ∧
      ((ofText "a b" trimmingEdits).calls 2).1 = trimmedTokens.map .ok ∧
      ((ofText "a b" trimmingEdits).calls 2).2.log.consumedStretches = [(0, 1)] ∧
      Faithful "a b" trimmedTokens
        ((ofText "a b" trimmingEdits).calls 2).2.log.consumedStretches ∧
      ∀ token ∈ trimmedTokens, token.span.FitsWords := by
  have hsize : (Bytes.ofText "a b").length < Nat.pow 2 32 := by decide +kernel
  have hfresh : trimmingEdits.Fresh := rfl
  have htokens : ((ofText "a b" trimmingEdits).calls 2).1 = trimmedTokens.map .ok := by cbv
  have hcut : ((ofText "a b" trimmingEdits).calls 2).2.log.consumedStretches = [(0, 1)] := by cbv
  have hcalls : (ofText "a b" trimmingEdits).calls 2 =
      (trimmedTokens.map .ok, ((ofText "a b" trimmingEdits).calls 2).2) := Prod.ext htokens rfl
  exact ⟨hsize, hfresh, htokens, hcut, faithful_of_calls hsize hfresh hcalls⟩

end CorrectedStream
end SyntaxRecovery
