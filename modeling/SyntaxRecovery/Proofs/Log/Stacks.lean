import Mathlib
import SyntaxRecovery.EditLog

/-! The log as it is written in place. There the tokens of an edit stand on a stack, last to first,
so that they are taken off in the order in which they are emitted. Checks and writes come one after
another. The calls come to what the changes give that make a new log. -/
namespace SyntaxRecovery

/-- A call on the log of a parser. -/
inductive LogCall where
  | recordInsert (tokens : List TokenKind) (completes : Option TokenKind) (anchor : Nat)
  | recordReplace (tokens : List TokenKind) (start last : Nat)
  | recordRemove (start last : Nat)
  | insertAhead (token : TokenKind) (index : Nat)
  | apply (request : EditRequest)
  | setRecording (recording : Bool)
  | resetConsumed
  deriving DecidableEq, Repr

/-- What a call answers: the index of an edit or none, whether a token has been added, or
nothing. -/
inductive LogReply where
  | slot (index : Option Nat)
  | added (done : Bool)
  | silent
  deriving DecidableEq, Repr

/-- The call has recorded nothing. -/
def LogReply.IsRefusal (reply : LogReply) : Prop := reply = .slot none ∨ reply = .added false

instance (reply : LogReply) : Decidable reply.IsRefusal := inferInstanceAs (Decidable (_ ∨ _))

namespace EditLog

/-- What a call answers that gives an index, and the log after it. -/
def recorded (log : EditLog) : Option (Nat × EditLog) → LogReply × EditLog
  | some (index, made) => (.slot (some index), made)
  | none => (.slot none, log)

/-- What a call answers, and the log after it. -/
def perform (log : EditLog) : LogCall → LogReply × EditLog
  | .recordInsert tokens completes anchor => log.recorded (log.recordInsert tokens completes anchor)
  | .recordReplace tokens start last => log.recorded (log.recordReplace tokens start last)
  | .recordRemove start last => log.recorded (log.recordRemove start last)
  | .insertAhead token index =>
    match log.insertAhead token index with
    | some made => (.added true, made)
    | none => (.added false, log)
  | .apply request => log.recorded (log.apply request)
  | .setRecording recording => (.silent, log.setRecording recording)
  | .resetConsumed => (.silent, log.resetConsumed)

/-- The answers to the calls, made one after the other. -/
def replies (log : EditLog) : List LogCall → List LogReply
  | [] => []
  | call :: calls => (log.perform call).1 :: replies (log.perform call).2 calls

def performAll (log : EditLog) (calls : List LogCall) : EditLog :=
  calls.foldl (fun log call => (log.perform call).2) log

end EditLog

/-- An insertion with its tokens last to first. -/
structure StackedInsertion where
  tokens : List TokenKind
  anchor : Nat
  completes : Option TokenKind
  consumed : Bool
  deriving DecidableEq, Repr

/-- A replacement with its tokens last to first. -/
structure StackedReplacement where
  tokens : List TokenKind
  start : Nat
  last : Nat
  consumed : Bool
  deriving DecidableEq, Repr

structure StackedLog where
  config : RecoveryConfig
  insertions : List StackedInsertion := []
  replacements : List StackedReplacement := []
  removals : List Removal := []
  deriving DecidableEq, Repr

def Insertion.stacked (edit : Insertion) : StackedInsertion :=
  ⟨edit.tokens.reverse, edit.anchor, edit.completes, edit.consumed⟩

def Replacement.stacked (edit : Replacement) : StackedReplacement :=
  ⟨edit.tokens.reverse, edit.start, edit.last, edit.consumed⟩

def EditLog.stacked (log : EditLog) : StackedLog :=
  ⟨log.config, log.insertions.map (·.stacked), log.replacements.map (·.stacked), log.removals⟩

/-- A call that works on the log itself. -/
abbrev OnStacks := StateM StackedLog

namespace OnStacks
variable {α : Type}

/-- Makes the call, unless recording is off. -/
def whileRecording (refusal : α) (call : OnStacks α) : OnStacks α := do
  if (← get).config.recording then call else return refusal

/-- Stacks those of the tokens that may be recorded, and records the stack unless it is empty. -/
def withStack (tokens : List TokenKind) (record : List TokenKind → OnStacks (Option Nat)) :
    OnStacks (Option Nat) := do
  let config := (← get).config
  let stack := (tokens.filter fun kind => config.IsSynthesizable kind).reverse
  if stack.isEmpty then return none else record stack

def recordInsert (tokens : List TokenKind) (completes : Option TokenKind) (anchor : Nat) :
    OnStacks (Option Nat) :=
  whileRecording none <| withStack tokens fun stack => do
    let config := (← get).config
    if ∃ kind ∈ completes, config.FiltersCompletion kind then return none
    let edit : StackedInsertion := ⟨stack, anchor, completes, false⟩
    modify fun log => { log with insertions := log.insertions ++ [edit] }
    return some ((← get).insertions.length - 1)

/-- The token goes to the bottom of the stack. -/
def insertAhead (token : TokenKind) (index : Nat) : OnStacks Bool :=
  whileRecording false do
    match (← get).insertions[index]? with
    | some edit =>
      let edit := { edit with tokens := token :: edit.tokens }
      modify fun log => { log with insertions := log.insertions.set index edit }
      return true
    | none => return false

def recordReplace (tokens : List TokenKind) (start last : Nat) : OnStacks (Option Nat) :=
  whileRecording none <| withStack tokens fun stack => do
    let edit : StackedReplacement := ⟨stack, start, last, false⟩
    modify fun log => { log with replacements := log.replacements ++ [edit] }
    return some ((← get).replacements.length - 1)

def recordRemove (start last : Nat) : OnStacks (Option Nat) :=
  whileRecording none do
    modify fun log => { log with removals := log.removals ++ [{ start, last }] }
    return some ((← get).removals.length - 1)

def apply : EditRequest → OnStacks (Option Nat)
  | .insert tokens anchor completes => recordInsert tokens completes anchor
  | .insertAhead token index => do
    if ← insertAhead token index then return some index else return none
  | .replace tokens start last => recordReplace tokens start last
  | .remove start last => recordRemove start last

def setRecording (recording : Bool) : OnStacks Unit :=
  modify fun log => { log with config := { log.config with recording } }

def resetConsumed : OnStacks Unit := do
  modify fun log => { log with insertions := log.insertions.map ({ · with consumed := false }) }
  modify fun log => { log with replacements := log.replacements.map ({ · with consumed := false }) }
  modify fun log => { log with removals := log.removals.map ({ · with consumed := false }) }

end OnStacks

def LogCall.onStacks : LogCall → OnStacks LogReply
  | .recordInsert tokens completes anchor => do
    return .slot (← OnStacks.recordInsert tokens completes anchor)
  | .recordReplace tokens start last => do return .slot (← OnStacks.recordReplace tokens start last)
  | .recordRemove start last => do return .slot (← OnStacks.recordRemove start last)
  | .insertAhead token index => do return .added (← OnStacks.insertAhead token index)
  | .apply request => do return .slot (← OnStacks.apply request)
  | .setRecording recording => do
    OnStacks.setRecording recording
    return .silent
  | .resetConsumed => do
    OnStacks.resetConsumed
    return .silent

namespace EditLog
variable {log : EditLog}

/-- The index that a call answers, and the log after it with its tokens on stacks. -/
def stackedAfter (log : EditLog) (outcome : Option (Nat × EditLog)) : Option Nat × StackedLog :=
  (outcome.map (·.1), ((outcome.map (·.2)).getD log).stacked)

theorem stackedAfter_insertion (log : EditLog) (edit : Insertion) : log.stackedAfter
    (some (log.insertions.length, { log with insertions := log.insertions ++ [edit] })) =
    let insertions := log.stacked.insertions ++ [edit.stacked]
    (some (insertions.length - 1), { log.stacked with insertions }) := by
  simp [stackedAfter, stacked]

theorem stackedAfter_replacement (log : EditLog) (edit : Replacement) : log.stackedAfter
    (some (log.replacements.length, { log with replacements := log.replacements ++ [edit] })) =
    let replacements := log.stacked.replacements ++ [edit.stacked]
    (some (replacements.length - 1), { log.stacked with replacements }) := by
  simp [stackedAfter, stacked]

theorem stackedAfter_removal (log : EditLog) (edit : Removal) : log.stackedAfter
    (some (log.removals.length, { log with removals := log.removals ++ [edit] })) =
    let removals := log.stacked.removals ++ [edit]
    (some (removals.length - 1), { log.stacked with removals }) := by
  simp [stackedAfter, stacked]

theorem run_whileRecording {α : Type} (log : EditLog) (refusal : α) (call : OnStacks α) :
    (OnStacks.whileRecording refusal call).run log.stacked =
      if log.config.recording then call.run log.stacked else pure (refusal, log.stacked) := by
  unfold OnStacks.whileRecording
  rw [StateT.run_bind, StateT.run_get, pure_bind]
  exact apply_ite (fun call : OnStacks α => call.run log.stacked) _ _ _

theorem run_withStack (log : EditLog) (tokens : List TokenKind)
    (record : List TokenKind → OnStacks (Option Nat)) :
    (OnStacks.withStack tokens record).run log.stacked =
      match log.synthesizable tokens with
      | [] => pure (none, log.stacked)
      | first :: others => (record (first :: others).reverse).run log.stacked := by
  have hrun : (OnStacks.withStack tokens record).run log.stacked =
      (if (log.synthesizable tokens).reverse.isEmpty then return none
        else record (log.synthesizable tokens).reverse : OnStacks (Option Nat)).run log.stacked :=
          rfl
  rw [hrun]
  cases log.synthesizable tokens with
  | nil => rfl
  | cons first others => rw [if_neg (by simp)]

theorem run_recordInsert (log : EditLog) (tokens : List TokenKind) (completes : Option TokenKind)
    (anchor : Nat) : (OnStacks.recordInsert tokens completes anchor).run log.stacked =
      log.stackedAfter (log.recordInsert tokens completes anchor) := by
  unfold OnStacks.recordInsert EditLog.recordInsert
  rw [run_whileRecording, run_withStack]
  cases log.synthesizable tokens with
  | nil => split <;> rfl
  | cons first others =>
    by_cases hon : log.config.recording = true
    · simp only [hon, true_and, if_true]
      by_cases hfilter : ∃ kind ∈ completes, log.stacked.config.FiltersCompletion kind
      · have hrefused : ¬ ∀ kind ∈ completes, ¬ log.config.FiltersCompletion kind := by
          obtain ⟨kind, hkind, hf⟩ := hfilter
          exact fun hnone => hnone kind hkind hf
        rw [if_neg hrefused, StateT.run_bind, StateT.run_get, pure_bind]
        dsimp only
        rw [if_pos hfilter]
        rfl
      · have htaken : ∀ kind ∈ completes, ¬ log.config.FiltersCompletion kind :=
          fun kind hkind hf => hfilter ⟨kind, hkind, hf⟩
        rw [if_pos htaken, StateT.run_bind, StateT.run_get, pure_bind]
        dsimp only
        rw [if_neg hfilter, stackedAfter_insertion]
        rfl
    · simp only [hon]
      rfl

/-- What is added behind the other tokens is put below them. -/
theorem stacked_modify {token : TokenKind} {index : Nat} (hindex : index < log.insertions.length) :
    EditLog.stacked { log with insertions := log.insertions.modify index fun edit =>
      { edit with others := edit.others ++ [token] } } =
    let edit := log.insertions[index].stacked
    { log.stacked with
      insertions :=
        log.stacked.insertions.set index { edit with tokens := token :: edit.tokens } } := by
  simp [stacked, Insertion.stacked, Insertion.tokens, List.modify_eq_set_get _ hindex, List.map_set]

theorem stacked_resetConsumed (log : EditLog) : log.resetConsumed.stacked =
    { log.stacked with
      insertions := log.stacked.insertions.map ({ · with consumed := false })
      replacements := log.stacked.replacements.map ({ · with consumed := false })
      removals := log.stacked.removals.map ({ · with consumed := false }) } := by
  simp [resetConsumed, stacked, Insertion.stacked, Insertion.tokens, Replacement.stacked,
    Replacement.tokens]

theorem run_insertAhead (log : EditLog) (token : TokenKind) (index : Nat) :
    (OnStacks.insertAhead token index).run log.stacked =
      ((log.insertAhead token index).isSome,
        ((log.insertAhead token index).getD log).stacked) := by
  unfold OnStacks.insertAhead EditLog.insertAhead
  rw [run_whileRecording]
  by_cases hon : log.config.recording = true
  · simp only [hon, true_and, if_true]
    rw [StateT.run_bind, StateT.run_get, pure_bind]
    have hget : log.stacked.insertions[index]? = log.insertions[index]?.map (·.stacked) :=
      List.getElem?_map
    dsimp only
    rw [hget]
    by_cases hindex : index < log.insertions.length
    · rw [if_pos hindex, List.getElem?_eq_getElem hindex, Option.getD_some, stacked_modify hindex]
      rfl
    · rw [if_neg hindex, List.getElem?_eq_none (Nat.le_of_not_lt hindex)]
      rfl
  · simp only [hon]
    rfl

theorem run_recordReplace (log : EditLog) (tokens : List TokenKind) (start last : Nat) :
    (OnStacks.recordReplace tokens start last).run log.stacked =
      log.stackedAfter (log.recordReplace tokens start last) := by
  unfold OnStacks.recordReplace EditLog.recordReplace
  rw [run_whileRecording, run_withStack]
  cases log.synthesizable tokens with
  | nil => split <;> rfl
  | cons first others =>
    by_cases hon : log.config.recording = true
    · simp only [hon, if_true]
      rw [stackedAfter_replacement]
      rfl
    · simp only [hon]
      rfl

theorem run_recordRemove (log : EditLog) (start last : Nat) :
    (OnStacks.recordRemove start last).run log.stacked =
      log.stackedAfter (log.recordRemove start last) := by
  unfold OnStacks.recordRemove EditLog.recordRemove
  rw [run_whileRecording]
  by_cases hon : log.config.recording = true
  · simp only [hon, if_true]
    rw [stackedAfter_removal]
    rfl
  · simp only [hon]
    rfl

theorem run_apply (log : EditLog) (request : EditRequest) :
    (OnStacks.apply request).run log.stacked = log.stackedAfter (log.apply request) := by
  cases request with
  | insert tokens anchor completes => exact run_recordInsert log tokens completes anchor
  | insertAhead token index =>
    unfold OnStacks.apply EditLog.apply
    rw [StateT.run_bind, run_insertAhead]
    dsimp only
    cases log.insertAhead token index <;> rfl
  | replace tokens start last => exact run_recordReplace log tokens start last
  | remove start last => exact run_recordRemove log start last

/-- Calls in place answer what the changes answer that make a new log, and come to the same
edits. -/
theorem run_onStacks (log : EditLog) (call : LogCall) : call.onStacks.run log.stacked =
    ((log.perform call).1, (log.perform call).2.stacked) := by
  have slot (outcome : Option (Nat × EditLog)) (call : OnStacks (Option Nat))
      (h : call.run log.stacked = log.stackedAfter outcome) :
      (do return LogReply.slot (← call)).run log.stacked =
        ((log.recorded outcome).1, (log.recorded outcome).2.stacked) := by
    rw [StateT.run_bind, h]
    cases outcome <;> rfl
  cases call with
  | recordInsert tokens completes anchor =>
    exact slot _ _ (run_recordInsert log tokens completes anchor)
  | recordReplace tokens start last =>
    exact slot _ _ (run_recordReplace log tokens start last)
  | recordRemove start last => exact slot _ _ (run_recordRemove log start last)
  | insertAhead token index =>
    unfold LogCall.onStacks
    rw [StateT.run_bind, run_insertAhead]
    simp only [perform]
    cases log.insertAhead token index <;> rfl
  | apply request => exact slot _ _ (run_apply log request)
  | setRecording recording => rfl
  | resetConsumed =>
    simp only [perform, stacked_resetConsumed]
    rfl

/-- So do any calls, one after the other. -/
theorem run_mapM_onStacks (log : EditLog) (calls : List LogCall) :
    (calls.mapM LogCall.onStacks).run log.stacked =
      (log.replies calls, (log.performAll calls).stacked) := by
  induction calls generalizing log with
  | nil => rfl
  | cons call calls ih =>
    have hrest (reply : LogReply) (log : EditLog) :
        (do return reply :: (← calls.mapM LogCall.onStacks)).run log.stacked =
          (reply :: log.replies calls, (log.performAll calls).stacked) := by
      rw [StateT.run_bind, ih]
      rfl
    rw [List.mapM_cons, StateT.run_bind, run_onStacks]
    exact hrest _ _

end EditLog
end SyntaxRecovery
