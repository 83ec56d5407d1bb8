import SyntaxRecovery.Proofs.Propagation.Departures
import SyntaxRecovery.Proofs.Propagation.Splitting
import SyntaxRecovery.Proofs.Stream.Recording
import SyntaxRecovery.Proofs.Tree.Arena
import SyntaxRecovery.Session

/-! Propagation behind a replay. Reading the corrected stream does nothing to the log but mark edits
as consumed, and propagation does not look at these marks. -/
namespace SyntaxRecovery

section Marks
variable {α : Type} {unmark : α → α} {consumed : α → Bool} {marks : α → α → Prop} {l l' : List α}

/-- Lists that differ in marks alone, where no mark is missing, are related member by member. -/
theorem forall₂_of_map_eq
    (hmarks : ∀ a b, unmark b = unmark a → (consumed a → consumed b) → marks a b)
    (hmap : l'.map unmark = l.map unmark)
    (hany : ∀ i : Nat, l[i]?.any consumed → l'[i]?.any consumed) : List.Forall₂ marks l l' := by
  induction l generalizing l' with
  | nil =>
    obtain rfl := List.map_eq_nil_iff.mp hmap
    exact .nil
  | cons a l ih =>
    obtain ⟨b, rest, rfl, hb, hrest⟩ := List.map_eq_cons_iff.mp hmap
    exact .cons (hmarks a b hb (hany 0)) (ih hrest fun i => hany (i + 1))

end Marks

namespace EditLog
variable {log later : EditLog}

/-- The edits of `later` are those of `log` in their order, with their tokens and positions. More of
them may be consumed, and none is less so. -/
structure Latches (log later : EditLog) : Prop where
  config_eq : later.config = log.config
  insertions : List.Forall₂ (fun edit after => after = { edit with consumed := after.consumed } ∧
    (edit.consumed → after.consumed)) log.insertions later.insertions
  replacements : List.Forall₂ (fun edit after => after = { edit with consumed := after.consumed } ∧
    (edit.consumed → after.consumed)) log.replacements later.replacements
  removals : List.Forall₂ (fun edit after => after = { edit with consumed := after.consumed } ∧
    (edit.consumed → after.consumed)) log.removals later.removals

theorem Latches.of_resetConsumed (h : later.resetConsumed = log.resetConsumed)
    (hmarks : ∀ edit, log.isConsumed edit → later.isConsumed edit) : log.Latches later := by
  obtain ⟨hconfig, hinsertions, hreplacements, hremovals⟩ := EditLog.mk.inj h
  refine ⟨hconfig, forall₂_of_map_eq ?_ hinsertions fun i => hmarks (.insertion i),
    forall₂_of_map_eq ?_ hreplacements fun i => hmarks (.replacement i),
    forall₂_of_map_eq ?_ hremovals fun i => hmarks (.removal i)⟩
  · rintro ⟨⟩ ⟨⟩ heq hmark
    cases heq
    exact ⟨rfl, hmark⟩
  · rintro ⟨⟩ ⟨⟩ heq hmark
    cases heq
    exact ⟨rfl, hmark⟩
  · rintro ⟨⟩ ⟨⟩ heq hmark
    cases heq
    exact ⟨rfl, hmark⟩

end EditLog

/-- Propagation does not ask whether an edit has been consumed. -/
theorem propagate_of_resetConsumed {log other : EditLog}
    (h : other.resetConsumed = log.resetConsumed) (tree : Tree) (diagnostics : List Diagnostic) :
    propagate tree diagnostics other = propagate tree diagnostics log := by
  have hoffers (log : EditLog) : Offer.ofLog log.resetConsumed = Offer.ofLog log := by
    simp [Offer.ofLog, EditLog.resetConsumed, ← List.map_reverse, List.flatMap_map,
      Insertion.tokens]
  have hstretches (log : EditLog) : Stretch.ofLog log.resetConsumed = Stretch.ofLog log := by
    simp [Stretch.ofLog, EditLog.resetConsumed, Function.comp_def]
  apply propagate_congr
  · rw [← hoffers other, h, hoffers]
  · rw [← hstretches other, h, hstretches]

namespace CorrectedStream

theorem resetConsumed_next (s : CorrectedStream) :
    s.next.2.log.resetConsumed = s.log.resetConsumed := by
  obtain ⟨edits, call⟩ := next_eq_iff.mp (show s.next = (s.next.1, s.next.2) from rfl)
  rw [call.log_eq, EditLog.resetConsumed_foldl]

/-- A call, successful or not, only marks edits as consumed. -/
theorem latches_next (s : CorrectedStream) : s.log.Latches s.next.2.log := by
  refine .of_resetConsumed s.resetConsumed_next fun edit hedit => ?_
  obtain ⟨edits, call⟩ := next_eq_iff.mp (show s.next = (s.next.1, s.next.2) from rfl)
  rw [call.log_eq, EditLog.isConsumed_foldl, hedit, Bool.true_or]

theorem resetConsumed_collect (size returns : Nat) (found : List Token) (s : CorrectedStream) :
    (s.collect size returns found).2.log.resetConsumed = s.log.resetConsumed := by
  fun_induction collect size returns found s with
  | case1 returns found s failure t hn =>
    rw [← s.resetConsumed_next, hn]
  | case2 returns found s token t hn found' hlast =>
    rw [← s.resetConsumed_next, hn]
  | case3 returns found s token t hn found' hlast hp ih =>
    rw [ih, ← s.resetConsumed_next, hn]
  | case4 found s token t hn hlast hp =>
    rw [← s.resetConsumed_next, hn]
  | case5 found s token t hn found' hlast hp returns ih =>
    rw [ih, ← s.resetConsumed_next, hn]

end CorrectedStream

namespace Session
variable {session : Session} {text : String} {tokens : List Token}

/-- The session without its source. -/
def withoutSource (session : Session) : Session := { session with source := none }

/-- What a replay leaves of the log is the log, but for the marks. -/
theorem resetConsumed_of_replayText {log after : EditLog}
    (h : replayText text log = .ok (tokens, after)) : after.resetConsumed = log.resetConsumed := by
  unfold replayText at h
  split at h
  · next tokens' stream ht =>
    cases h
    have hreset := CorrectedStream.resetConsumed_collect
      (CorrectedStream.ofText text log).scanner.source.length 1 [] (CorrectedStream.ofText text log)
    rw [← CorrectedStream.tokens, ht] at hreset
    exact hreset
  · cases h

theorem replayText_of_replay (hsource : session.source = some text)
    (h : session.replay = .ok tokens) :
    ∃ log, replayText text session.editLog = .ok (tokens, log) := by
  simp only [replay, hsource] at h
  cases hreplay : replayText text session.editLog with
  | error failure =>
    rw [hreplay] at h
    cases h
  | ok result =>
    rw [hreplay] at h
    cases h
    exact ⟨result.2, rfl⟩

theorem propagate_of_replayText {log : EditLog} (hsource : session.source = some text)
    (h : replayText text session.editLog = .ok (tokens, log)) : session.propagate =
      match SyntaxRecovery.propagate session.tree session.diagnostics log with
      | some (tree, diagnostics) => .ok { tree, diagnostics, tokens := some tokens }
      | none => .error .brokenTree := by
  simp only [propagate, hsource, h]
  rfl

theorem propagate_withoutSource (session : Session) : session.withoutSource.propagate =
    match SyntaxRecovery.propagate session.tree session.diagnostics session.editLog with
    | some (tree, diagnostics) => .ok { tree, diagnostics, tokens := none }
    | none => .error .brokenTree := by
  rfl

/-- A call of the corrected stream changes nothing in the log but that edits get consumed. So a
session whose replay succeeds propagates to the tree and the diagnostics that it would come to
without its source, and for a tree that calls can build there are such. -/
theorem propagate_replayed :
    (∀ s : CorrectedStream, s.log.Latches s.next.2.log) ∧
    ∀ (session : Session) (text : String) (tokens : List Token), session.source = some text →
      session.replay = .ok tokens →
      session.propagate = session.withoutSource.propagate.map ({ · with tokens := some tokens }) ∧
      (session.tree.Reachable → ∃ result, session.withoutSource.propagate = .ok result) := by
  refine ⟨CorrectedStream.latches_next,
    fun session text tokens hsource hreplay => ⟨?_, fun htree => ?_⟩⟩
  · obtain ⟨log, hlog⟩ := replayText_of_replay hsource hreplay
    rw [propagate_of_replayText hsource hlog, propagate_withoutSource,
      propagate_of_resetConsumed (resetConsumed_of_replayText hlog)]
    cases SyntaxRecovery.propagate session.tree session.diagnostics session.editLog <;> rfl
  · obtain ⟨tree, diagnostics, hpropagate⟩ :=
      exists_propagate htree.wellFormed htree.root_lt_size session.diagnostics session.editLog
    rw [propagate_withoutSource, hpropagate]
    exact ⟨_, rfl⟩

/-- `x =` in a block, with a name and a semicolon put behind it. -/
def danglingSession : Session where
  source := some "{x = }"
  edits := [.insert [.identifier, .semicolon] 3 none]
  tree := danglingAssignment

def danglingTokens : List Token :=
  [⟨.openBrace, ⟨0, 1⟩, "\x7b", .source⟩, ⟨.identifier, ⟨1, 2⟩, "x", .source⟩,
   ⟨.assign, ⟨3, 4⟩, "=", .source⟩, ⟨.identifier, ⟨4, 4⟩, "$missing$", .inserted⟩,
   ⟨.semicolon, ⟨4, 4⟩, "", .inserted⟩, ⟨.closeBrace, ⟨5, 6⟩, "\x7d", .source⟩,
   ⟨.endOfSource, ⟨6, 6⟩, "", .source⟩]

theorem propagate_replayed_danglingSession :
    danglingSession.source = some "{x = }" ∧ danglingSession.replay = .ok danglingTokens ∧
      danglingSession.tree.Reachable ∧
      ∃ result, danglingSession.withoutSource.propagate = .ok result ∧
        danglingSession.propagate = .ok { result with tokens := some danglingTokens } := by
  have hreplay : danglingSession.replay = .ok danglingTokens := by cbv
  have hlink : Tree.link danglingAssignment.nodes danglingAssignment.root =
      .ok danglingAssignment := by
    decide +kernel
  have htree : danglingSession.tree.Reachable := .linked hlink
  obtain ⟨hpropagate, hresult⟩ := propagate_replayed.2 danglingSession _ _ rfl hreplay
  obtain ⟨result, hok⟩ := hresult htree
  rw [hok] at hpropagate
  exact ⟨rfl, hreplay, htree, result, hok, hpropagate⟩

end Session
end SyntaxRecovery
