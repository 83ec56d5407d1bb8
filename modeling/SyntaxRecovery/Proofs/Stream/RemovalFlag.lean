import Mathlib
import SyntaxRecovery.Proofs.Stream.Applications

/-! What the stream remembers of removed stretches. A call that reads on sets the flag if it passed
a removed stretch, and clears it if not. A call that hands out a kind from the queue applies no edit
and leaves the flag as it is, so that all tokens of an edit have the flag of the first. -/
namespace SyntaxRecovery.CorrectedStream
variable {s t : CorrectedStream} {r : Bool} {edits : List Application} {token : Token}
  {tokens : List Token}

/-- A removal is among the edits. -/
def Removes (edits : List Application) : Prop := ∃ index, .removal index ∈ edits

/-- The flag says whether the call, or what was read before it, passed a removed stretch. -/
theorem Applies.afterRemoval_iff (h : s.Applies r edits (.ok token) t) :
    t.afterRemoval = true ↔ r = true ∨ Removes edits := by
  generalize hanswer : (Except.ok token : Except StreamFailure Token) = answer at h
  induction h with
  | insertion => simp [Removes, emit, pastInsertion]
  | source => simp [Removes]
  | replacement => simp [Removes, emit, pastReplacement]
  | @removal _ _ _ _ _ _ index _ _ _ _ _ _ _ _ ih =>
    exact iff_of_true ((ih hanswer).mpr (.inl rfl)) (.inr ⟨index, List.mem_cons_self⟩)
  | failure => cases hanswer
  | endless => cases hanswer

namespace Call

/-- After a call with an empty queue the flag says whether the call applied a removal. -/
theorem afterRemoval_iff (h : s.Call edits (.ok token) t) (hp : s.pending = []) :
    t.afterRemoval = true ↔ Removes edits := by
  cases h with
  | pending hp' => cases hp.symm.trans hp'
  | reading _ happlies =>
    rw [happlies.afterRemoval_iff]
    exact or_iff_right Bool.false_ne_true

/-- A kind from the queue is handed out without a look at the source and the log. -/
theorem of_pending (h : s.Call edits (.ok token) t) (hp : s.pending ≠ []) :
    edits = [] ∧ s.pending = token.kind :: t.pending ∧ t.afterRemoval = s.afterRemoval := by
  cases h with
  | pending hp' => exact ⟨rfl, hp', rfl⟩
  | reading hp' => exact absurd hp' hp

end Call

/-- The last call of a run that read on: it met an empty queue, gave `found` and left a queue that
the calls behind it have been served from. -/
structure LastRead (s : CorrectedStream) (tokens : List Token) (edits : List Application)
    (t : CorrectedStream) where
  earlier : List Token
  found : Token
  queued : List Token
  before : List Application
  applied : List Application
  start : CorrectedStream
  read : CorrectedStream
  tokens_eq : tokens = earlier ++ found :: queued
  edits_eq : edits = before ++ applied
  run : s.Run (earlier.map .ok) before start
  empty : start.pending = []
  call : start.Call applied (.ok found) read
  served : read.Run (queued.map .ok) [] t
  queue_eq : read.pending = queued.map (·.kind) ++ t.pending

namespace Run

/-- A run is served from the queue that it starts with, or one of its calls was the last to read on.
The flag is that of the start, or that of this call. -/
theorem served_or_lastRead (h : s.Run (tokens.map .ok) edits t) :
    (edits = [] ∧ s.pending = tokens.map (·.kind) ++ t.pending ∧
      t.afterRemoval = s.afterRemoval) ∨
    ∃ last : LastRead s tokens edits t, t.afterRemoval = last.read.afterRemoval := by
  induction tokens generalizing s edits with
  | nil =>
    cases h with
    | nil => exact .inl ⟨rfl, rfl, rfl⟩
  | cons token tokens ih =>
    cases h with
    | @cons _ u _ _ _ first more call rest =>
      rcases ih rest with ⟨rfl, hqueue, hflag⟩ | ⟨last, hflag⟩
      · rw [List.append_nil]
        by_cases hp : s.pending = []
        · exact .inr ⟨⟨[], token, tokens, [], first, s, u, rfl, rfl, .nil, hp, call, rest, hqueue⟩,
            hflag⟩
        · obtain ⟨rfl, hpending, hkept⟩ := call.of_pending hp
          exact .inl ⟨rfl, by rw [hpending, hqueue]; rfl, hflag.trans hkept⟩
      · exact .inr ⟨{ last with
          earlier := token :: last.earlier
          before := first ++ last.before
          tokens_eq := congrArg (token :: ·) last.tokens_eq
          edits_eq := (congrArg (first ++ ·) last.edits_eq).trans (List.append_assoc ..).symm
          run := .cons call last.run }, hflag⟩

end Run

/-- After any successful calls of a new stream the flag says whether a removal was applied by the
last call that read on. The calls since then have applied nothing and have handed out other kinds of
its edit. Where there are none, this is the last call of all. -/
theorem afterRemoval_iff_of_calls {text : String} {log : EditLog} {n : Nat}
    (hcalls : (ofText text log).calls n = (tokens.map .ok, t)) (hne : tokens ≠ []) :
    (∃ edits, (ofText text log).Run (tokens.map .ok) edits t) ∧
      ∀ edits, (ofText text log).Run (tokens.map .ok) edits t →
        ∃ last : LastRead (ofText text log) tokens edits t,
          (t.afterRemoval = true ↔ Removes last.applied) := by
  refine ⟨(calls_eq_iff.mp hcalls).2, fun edits hrun => ?_⟩
  rcases hrun.served_or_lastRead with ⟨-, hqueue, -⟩ | ⟨last, hflag⟩
  · have hempty := List.append_eq_nil_iff.mp hqueue.symm
    exact absurd (List.map_eq_nil_iff.mp hempty.1) hne
  · exact ⟨last, by rw [hflag, last.call.afterRemoval_iff last.empty]⟩

/-- A removed stretch, and two tokens behind it. -/
def removedThenInserted : EditLog where
  insertions := [⟨.comma, [.semicolon], 0, none, false⟩]
  removals := [⟨0, 0, false⟩]

/-- The comma and the semicolon, handed out by the first call and the second. -/
def removedThenInsertedTokens : List Token :=
  [⟨.comma, ⟨1, 1⟩, "", .inserted⟩, ⟨.semicolon, ⟨1, 1⟩, "", .inserted⟩]

/-- The first call passes the removed stretch and gives the comma, the second gives the semicolon
from the queue. -/
theorem next_removedThenInserted : ∃ s t,
    (ofText "a" removedThenInserted).next = (.ok ⟨.comma, ⟨1, 1⟩, "", .inserted⟩, s) ∧
      s.next = (.ok ⟨.semicolon, ⟨1, 1⟩, "", .inserted⟩, t) ∧
      s.Call [] (.ok ⟨.semicolon, ⟨1, 1⟩, "", .inserted⟩) t ∧ t.afterRemoval = true := by
  have htoken : (ofText "a" removedThenInserted).next.1 =
      .ok ⟨.comma, ⟨1, 1⟩, "", .inserted⟩ := by cbv
  have hqueue : (ofText "a" removedThenInserted).next.2.pending = [.semicolon] := by cbv
  have horigin : (ofText "a" removedThenInserted).next.2.pendingOrigin = .inserted := by cbv
  have hoffset : (ofText "a" removedThenInserted).next.2.pendingOffset = 1 := by cbv
  have hflag : (ofText "a" removedThenInserted).next.2.afterRemoval = true := by cbv
  have hserved := Call.pending hqueue
  rw [horigin, hoffset] at hserved
  exact ⟨_, _, Prod.ext htoken rfl, next_eq_iff.mpr ⟨_, hserved⟩, hserved, hflag⟩

theorem afterRemoval_iff_of_calls_removedThenInserted : ∃ t,
    (ofText "a" removedThenInserted).calls 2 = (removedThenInsertedTokens.map .ok, t) ∧
      removedThenInsertedTokens ≠ [] ∧ t.afterRemoval = true ∧
      (∃ edits, (ofText "a" removedThenInserted).Run (removedThenInsertedTokens.map .ok) edits t) ∧
      ∀ edits, (ofText "a" removedThenInserted).Run (removedThenInsertedTokens.map .ok) edits t →
        ∃ last : LastRead (ofText "a" removedThenInserted) removedThenInsertedTokens edits t,
          Removes last.applied := by
  obtain ⟨s, t, hfirst, hnext, -, hflag⟩ := next_removedThenInserted
  have hne : removedThenInsertedTokens ≠ [] := List.cons_ne_nil _ _
  have hcalls : (ofText "a" removedThenInserted).calls 2 =
      (removedThenInsertedTokens.map .ok, t) := by
    simp only [calls, hfirst, hnext]
    rfl
  obtain ⟨hedits, hlast⟩ := afterRemoval_iff_of_calls hcalls hne
  refine ⟨t, hcalls, hne, hflag, hedits, fun edits hrun => ?_⟩
  obtain ⟨last, hiff⟩ := hlast edits hrun
  exact ⟨last, hiff.mp hflag⟩

/-- The second call applies no removal, and the flag is set. -/
theorem flag_removedThenInserted : ¬ ∀ (n : Nat) (tokens : List Token) (s : CorrectedStream)
    (token : Token) (t : CorrectedStream) (applied : List Application),
      (ofText "a" removedThenInserted).calls n = (tokens.map .ok, s) →
        s.next = (.ok token, t) → s.Call applied (.ok token) t →
          (t.afterRemoval = true ↔ Removes applied) := by
  intro h
  obtain ⟨s, t, hfirst, hnext, hserved, hflag⟩ := next_removedThenInserted
  have hcalls : (ofText "a" removedThenInserted).calls 1 =
      ([⟨.comma, ⟨1, 1⟩, "", .inserted⟩].map .ok, s) := by
    simp only [calls, hfirst]
    rfl
  obtain ⟨index, hmem⟩ := (h 1 _ s _ t [] hcalls hnext hserved).mp hflag
  exact List.not_mem_nil hmem

end SyntaxRecovery.CorrectedStream
