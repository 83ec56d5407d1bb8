import SyntaxRecovery.Proofs.Log.Stacks

/-! The slots of the log. A request that is taken makes a slot behind the others of its kind. The
slot stays in its place and holds what the request described, less the tokens that may not be
recorded, and behind them the tokens that were added to it later. -/
namespace SyntaxRecovery

/-- The request makes a slot of its own. -/
def EditRequest.MakesSlot : EditRequest → Prop
  | .insert .. | .replace .. | .remove .. => True
  | .insertAhead .. => False

/-- The request without the tokens that may not be recorded. -/
def EditRequest.synthesizable (config : RecoveryConfig) : EditRequest → EditRequest
  | .insert tokens anchor completes =>
    .insert (tokens.filter fun kind => config.IsSynthesizable kind) anchor completes
  | .replace tokens start last =>
    .replace (tokens.filter fun kind => config.IsSynthesizable kind) start last
  | request => request

/-- The request with more tokens, where it is an insertion. -/
def EditRequest.followedBy (more : List TokenKind) : EditRequest → EditRequest
  | .insert tokens anchor completes => .insert (tokens ++ more) anchor completes
  | request => request

/-- What the call asks the log to record. -/
def LogCall.request? : LogCall → Option EditRequest
  | .recordInsert tokens completes anchor => some (.insert tokens anchor completes)
  | .recordReplace tokens start last => some (.replace tokens start last)
  | .recordRemove start last => some (.remove start last)
  | .insertAhead token index => some (.insertAhead token index)
  | .apply request => some request
  | .setRecording _ | .resetConsumed => none

/-- The token that the request is to add to the insertion at `index`. -/
def EditRequest.addition? (index : Nat) : EditRequest → Option TokenKind
  | .insertAhead token place => if place = index then some token else none
  | .insert .. | .replace .. | .remove .. => none

/-- The token that the call has added to the insertion at `index`, going by its answer. -/
def LogCall.added? (index : Nat) (call : LogCall) (reply : LogReply) : Option TokenKind :=
  if reply.IsRefusal then none else call.request?.bind (·.addition? index)

@[simp] theorem EditRequest.followedBy_nil (request : EditRequest) :
    request.followedBy [] = request := by
  cases request <;> simp [followedBy]

theorem EditRequest.followedBy_append (request : EditRequest) (tokens more : List TokenKind) :
    request.followedBy (tokens ++ more) = (request.followedBy tokens).followedBy more := by
  cases request <;> simp [followedBy]

namespace EditLog

/-- How many slots there are for edits of the request's kind. -/
def slots (log : EditLog) : EditRequest → Nat
  | .insert .. | .insertAhead .. => log.insertions.length
  | .replace .. => log.replacements.length
  | .remove .. => log.removals.length

/-- The slot at `index` holds what the request describes. -/
def Holds (log : EditLog) (index : Nat) : EditRequest → Prop
  | .insert tokens anchor completes => ∃ edit, log.insertions[index]? = some edit ∧
    edit.tokens = tokens ∧ edit.anchor = anchor ∧ edit.completes = completes
  | .replace tokens start last => ∃ edit, log.replacements[index]? = some edit ∧
    edit.tokens = tokens ∧ edit.start = start ∧ edit.last = last
  | .remove start last => ∃ edit, log.removals[index]? = some edit ∧
    edit.start = start ∧ edit.last = last
  | .insertAhead .. => False

/-- Why a request is not taken. -/
def Refuses (log : EditLog) (request : EditRequest) : Prop :=
  log.config.recording = false ∨
    match request with
    | .insert tokens _ completes => (∀ kind ∈ tokens, ¬ log.config.IsSynthesizable kind) ∨
      ∃ kind ∈ completes, log.config.FiltersCompletion kind
    | .insertAhead _ index => log.insertions.length ≤ index
    | .replace tokens _ _ => ∀ kind ∈ tokens, ¬ log.config.IsSynthesizable kind
    | .remove _ _ => False

/-- What becomes of the log when a request is taken, and the index that is answered. -/
inductive Takes (log : EditLog) : EditRequest → Nat → EditLog → Prop
  | insert {tokens : List TokenKind} {edit : Insertion} (hconsumed : edit.consumed = false)
    (htokens : edit.tokens = log.synthesizable tokens) :
    Takes log (.insert tokens edit.anchor edit.completes) log.insertions.length
      { log with insertions := log.insertions ++ [edit] }
  | insertAhead {token : TokenKind} {index : Nat} :
    Takes log (.insertAhead token index) index { log with
      insertions := log.insertions.modify index fun edit =>
        { edit with others := edit.others ++ [token] } }
  | replace {tokens : List TokenKind} {edit : Replacement} (hconsumed : edit.consumed = false)
    (htokens : edit.tokens = log.synthesizable tokens) :
    Takes log (.replace tokens edit.start edit.last) log.replacements.length
      { log with replacements := log.replacements ++ [edit] }
  | remove {edit : Removal} (hconsumed : edit.consumed = false) :
    Takes log (.remove edit.start edit.last) log.removals.length
      { log with removals := log.removals ++ [edit] }

/-- The tokens that the calls add to the insertion at `index`, in the order of the calls. -/
def added (log : EditLog) (index : Nat) (calls : List LogCall) : List TokenKind :=
  (calls.zip (log.replies calls)).filterMap fun (call, reply) => call.added? index reply

section Request
variable {log made : EditLog} {request other : EditRequest} {index place : Nat}

theorem synthesizable_eq_nil_iff (log : EditLog) (tokens : List TokenKind) :
    log.synthesizable tokens = [] ↔ ∀ kind ∈ tokens, ¬ log.config.IsSynthesizable kind := by
  simp [synthesizable, List.filter_eq_nil_iff]

/-- A request is refused for one of the reasons there are, or it is taken. -/
theorem apply_cases (log : EditLog) (request : EditRequest) :
    log.Refuses request ∧ log.apply request = none ∨
    ¬ log.Refuses request ∧
      ∃ index made, log.apply request = some (index, made) ∧ log.Takes request index made := by
  cases hon : log.config.recording with
  | false =>
    refine .inl ⟨.inl hon, ?_⟩
    cases request with
    | insert tokens anchor completes =>
      simp only [apply, recordInsert, hon]
      split <;> simp
    | insertAhead => simp [apply, insertAhead, hon]
    | replace =>
      simp only [apply, recordReplace, hon]
      split <;> simp
    | remove => simp [apply, recordRemove, hon]
  | true =>
    cases request with
    | insert tokens anchor completes =>
      simp only [Refuses, hon, Bool.true_eq_false, false_or, ← synthesizable_eq_nil_iff, apply,
        recordInsert, true_and]
      cases hkept : log.synthesizable tokens with
      | nil => simp
      | cons first others =>
        by_cases hfilter : ∀ kind ∈ completes, ¬ log.config.FiltersCompletion kind
        · let edit : Insertion := ⟨first, others, anchor, completes, false⟩
          have htakes : log.Takes (.insert tokens edit.anchor edit.completes) log.insertions.length
              { log with insertions := log.insertions ++ [edit] } := .insert rfl hkept.symm
          exact .inr ⟨by simpa using hfilter, _, _, if_pos hfilter, htakes⟩
        · refine .inl ⟨?_, if_neg hfilter⟩
          simpa using hfilter
    | insertAhead token index =>
      simp only [Refuses, hon, Bool.true_eq_false, false_or, apply, insertAhead, true_and]
      by_cases hindex : index < log.insertions.length
      · refine .inr ⟨Nat.not_le.mpr hindex, index, _, ?_, .insertAhead⟩
        rw [if_pos hindex, Option.map_some]
      · refine .inl ⟨Nat.le_of_not_lt hindex, ?_⟩
        rw [if_neg hindex, Option.map_none]
    | replace tokens start last =>
      simp only [Refuses, hon, Bool.true_eq_false, false_or, ← synthesizable_eq_nil_iff, apply,
        recordReplace, if_true]
      cases hkept : log.synthesizable tokens with
      | nil => simp
      | cons first others =>
        let edit : Replacement := ⟨first, others, start, last, false⟩
        have htakes : log.Takes (.replace tokens edit.start edit.last) log.replacements.length
            { log with replacements := log.replacements ++ [edit] } := .replace rfl hkept.symm
        exact .inr ⟨by simp, _, _, rfl, htakes⟩
    | remove start last =>
      simp only [Refuses, hon, Bool.true_eq_false, false_or, apply, recordRemove, if_true]
      let edit : Removal := ⟨start, last, false⟩
      have htakes : log.Takes (.remove edit.start edit.last) log.removals.length
          { log with removals := log.removals ++ [edit] } := .remove rfl
      exact .inr ⟨id, _, _, rfl, htakes⟩

/-- A request that makes a slot makes it behind the others of its kind. -/
theorem Takes.slot (h : log.Takes request index made) (hslot : request.MakesSlot) :
    index = log.slots request ∧ made.slots request = index + 1 ∧
      made.Holds index (request.synthesizable log.config) := by
  cases h with
  | insert _ htokens =>
    exact ⟨rfl, List.length_append, _, List.getElem?_concat_length, htokens, rfl, rfl⟩
  | insertAhead => exact hslot.elim
  | replace _ htokens =>
    exact ⟨rfl, List.length_append, _, List.getElem?_concat_length, htokens, rfl, rfl⟩
  | remove => exact ⟨rfl, List.length_append, _, List.getElem?_concat_length, rfl, rfl⟩

/-- What a slot holds is still there when a request has been taken. -/
theorem Takes.holds (h : log.Takes request index made) (hheld : log.Holds place other) :
    made.Holds place (other.followedBy (request.addition? place).toList) := by
  have keep {α : Type} {l : List α} {a : α} (hget : l[place]? = some a) (b : α) :
      (l ++ [b])[place]? = some a := by
    rw [List.getElem?_append_left (List.getElem?_eq_some_iff.mp hget).1, hget]
  cases other with
  | insertAhead => exact hheld.elim
  | insert tokens anchor completes =>
    obtain ⟨edit, hget, rfl, rfl, rfl⟩ := hheld
    cases h with
    | insert => exact ⟨edit, keep hget _, by simp [EditRequest.addition?]⟩
    | @insertAhead token index =>
      -- Only here a slot changes, and only the one that is named.
      by_cases hplace : index = place
      · refine ⟨{ edit with others := edit.others ++ [token] }, ?_, ?_, rfl, rfl⟩
        · simp [hplace, hget]
        · simp [EditRequest.addition?, hplace, Insertion.tokens]
      · refine ⟨edit, ?_, ?_, rfl, rfl⟩
        · simp [hplace, hget]
        · simp [EditRequest.addition?, hplace]
    | replace => exact ⟨edit, hget, by simp [EditRequest.addition?]⟩
    | remove => exact ⟨edit, hget, by simp [EditRequest.addition?]⟩
  | replace tokens start last =>
    obtain ⟨edit, hget, hheld⟩ := hheld
    cases h with
    | replace => exact ⟨edit, keep hget _, hheld⟩
    | insert | insertAhead | remove => exact ⟨edit, hget, hheld⟩
  | remove start last =>
    obtain ⟨edit, hget, hheld⟩ := hheld
    cases h with
    | remove => exact ⟨edit, keep hget _, hheld⟩
    | insert | insertAhead | replace => exact ⟨edit, hget, hheld⟩

theorem Takes.config_eq (h : log.Takes request index made) : made.config = log.config := by
  cases h <;> rfl

theorem Holds.setRecording (h : log.Holds index request) (recording : Bool) :
    (log.setRecording recording).Holds index request := by
  cases request <;> exact h

theorem Holds.resetConsumed (h : log.Holds index request) :
    log.resetConsumed.Holds index request := by
  cases request with
  | insert | replace | remove =>
    obtain ⟨edit, hget, hheld⟩ := h
    refine ⟨{ edit with consumed := false }, ?_, hheld⟩
    simp [EditLog.resetConsumed, hget]
  | insertAhead => exact h

end Request

section Call
variable {log made : EditLog} {call : LogCall} {calls : List LogCall} {reply : LogReply}
  {request : EditRequest} {index : Nat}

/-- What becomes of the log in a call. -/
inductive Performs (log : EditLog) : LogCall → LogReply → EditLog → Prop
  | refused {call : LogCall} {request : EditRequest} {reply : LogReply}
    (hrequest : call.request? = some request) (hrefuses : log.Refuses request)
    (hreply : reply.IsRefusal) : Performs log call reply log
  | taken {call : LogCall} {request : EditRequest} {reply : LogReply} {index : Nat} {made : EditLog}
    (hrequest : call.request? = some request) (hrefuses : ¬ log.Refuses request)
    (htakes : log.Takes request index made) (hreply : ¬ reply.IsRefusal)
    (hslot : request.MakesSlot → reply = .slot (some index)) : Performs log call reply made
  | setRecording (recording : Bool) :
    Performs log (.setRecording recording) .silent (log.setRecording recording)
  | resetConsumed : Performs log .resetConsumed .silent log.resetConsumed

theorem performs_recorded (call : LogCall) (hrequest : call.request? = some request) :
    log.Performs call (log.recorded (log.apply request)).1
      (log.recorded (log.apply request)).2 := by
  rcases log.apply_cases request with ⟨hrefuses, heq⟩ | ⟨hrefuses, index, made, heq, htakes⟩
  · rw [heq]
    exact .refused hrequest hrefuses (.inl rfl)
  · rw [heq]
    exact .taken hrequest hrefuses htakes (by simp [recorded, LogReply.IsRefusal]) fun _ => rfl

theorem performs_perform (log : EditLog) (call : LogCall) :
    log.Performs call (log.perform call).1 (log.perform call).2 := by
  cases call with
  | recordInsert tokens completes anchor =>
    exact performs_recorded (.recordInsert tokens completes anchor) rfl
  | recordReplace tokens start last =>
    exact performs_recorded (.recordReplace tokens start last) rfl
  | recordRemove start last => exact performs_recorded (.recordRemove start last) rfl
  | insertAhead token index =>
    rcases log.apply_cases (.insertAhead token index) with
      ⟨hrefuses, heq⟩ | ⟨hrefuses, place, made, heq, htakes⟩
    · have hnone : log.insertAhead token index = none := Option.map_eq_none_iff.mp heq
      simp only [perform, hnone]
      exact .refused rfl hrefuses (.inr rfl)
    · obtain ⟨made', hsome, heq⟩ := Option.map_eq_some_iff.mp heq
      cases heq
      simp only [perform, hsome]
      exact .taken rfl hrefuses htakes (by simp [LogReply.IsRefusal]) False.elim
  | apply request => exact performs_recorded (.apply request) rfl
  | setRecording recording => exact .setRecording recording
  | resetConsumed => exact .resetConsumed

theorem Performs.isRefusal_iff (h : log.Performs call reply made) :
    reply.IsRefusal ↔ ∃ request, call.request? = some request ∧ log.Refuses request := by
  cases h with
  | refused hrequest hrefuses hreply => exact iff_of_true hreply ⟨_, hrequest, hrefuses⟩
  | taken hrequest hrefuses htakes hreply hslot =>
    refine iff_of_false hreply ?_
    rintro ⟨other, hother, hrefused⟩
    obtain rfl := Option.some.inj (hrequest.symm.trans hother)
    exact hrefuses hrefused
  | setRecording | resetConsumed => simp [LogReply.IsRefusal, LogCall.request?]

theorem Performs.eq_of_isRefusal (h : log.Performs call reply made) (hreply : reply.IsRefusal) :
    made = log := by
  cases h with
  | refused => rfl
  | taken _ _ _ hnot => exact absurd hreply hnot
  | setRecording | resetConsumed => simp [LogReply.IsRefusal] at hreply

theorem Performs.slot (h : log.Performs call reply made) (hrequest : call.request? = some request)
    (hslot : request.MakesSlot) (hreply : reply = .slot (some index)) :
    index = log.slots request ∧ made.slots request = index + 1 ∧
      made.Holds index (request.synthesizable log.config) := by
  cases h with
  | refused _ _ hrefusal =>
    subst hreply
    simp [LogReply.IsRefusal] at hrefusal
  | taken hother _ htakes _ hplace =>
    obtain rfl := Option.some.inj (hrequest.symm.trans hother)
    subst hreply
    cases hplace hslot
    exact htakes.slot hslot
  | setRecording | resetConsumed => cases hrequest

/-- A call leaves the slots in their places and adds at most a token to one of them. -/
theorem Performs.holds (h : log.Performs call reply made) (hheld : log.Holds index request) :
    made.Holds index (request.followedBy (call.added? index reply).toList) := by
  cases h with
  | refused _ _ hreply => simpa [LogCall.added?, hreply] using hheld
  | taken hrequest _ htakes hreply =>
    simpa [LogCall.added?, hreply, hrequest] using htakes.holds hheld
  | setRecording recording =>
    simpa [LogCall.added?, LogCall.request?] using hheld.setRecording recording
  | resetConsumed => simpa [LogCall.added?, LogCall.request?] using hheld.resetConsumed

theorem Performs.config_eq (h : log.Performs call reply made) :
    ∃ recording, made.config = { log.config with recording } := by
  cases h with
  | refused | resetConsumed => exact ⟨log.config.recording, rfl⟩
  | taken _ _ htakes => exact ⟨log.config.recording, htakes.config_eq⟩
  | setRecording recording => exact ⟨recording, rfl⟩

end Call

section Run
variable {log : EditLog} {request : EditRequest} {index : Nat}

theorem added_cons (log : EditLog) (index : Nat) (call : LogCall) (calls : List LogCall) :
    log.added index (call :: calls) = (call.added? index (log.perform call).1).toList ++
      (log.perform call).2.added index calls := by
  simp only [added, replies, List.zip_cons_cons, List.filterMap_cons]
  cases call.added? index (log.perform call).1 <;> rfl

/-- What a slot holds stays there through any calls, with the tokens behind it that they add. -/
theorem Holds.performAll (h : log.Holds index request) (calls : List LogCall) :
    (log.performAll calls).Holds index (request.followedBy (log.added index calls)) := by
  induction calls generalizing log request with
  | nil => simpa [EditLog.performAll, added] using h
  | cons call calls ih =>
    rw [added_cons, EditRequest.followedBy_append]
    exact ih ((log.performs_perform call).holds h)

/-- Of the configuration only the switch changes. -/
theorem config_performAll (log : EditLog) (calls : List LogCall) :
    ∃ recording, (log.performAll calls).config = { log.config with recording } := by
  induction calls generalizing log with
  | nil => exact ⟨log.config.recording, rfl⟩
  | cons call calls ih =>
    obtain ⟨between, hcall⟩ := (log.performs_perform call).config_eq
    obtain ⟨recording, hcalls⟩ := ih (log.perform call).2
    rw [hcall] at hcalls
    exact ⟨recording, hcalls⟩

theorem synthesizable_performAll (log : EditLog) (calls : List LogCall) (request : EditRequest) :
    request.synthesizable (log.performAll calls).config = request.synthesizable log.config := by
  obtain ⟨recording, hconfig⟩ := log.config_performAll calls
  rw [hconfig]
  cases request <;> rfl

end Run

/-- A call that answers the index of a slot has made the slot, behind all others of its kind.
Whatever calls come after it, the slot is at the index and holds what was to be recorded: the tokens
that may be recorded, and behind them those that later calls have added, in the order of the calls
and whether they may be recorded or not. No slot leaves its place, and none is without tokens where
it needs some. A call records nothing exactly for one of the reasons there are, and then leaves the
log as it was. All this holds where the calls write to the log in place, with tokens on stacks. -/
theorem slots_of_calls (config : RecoveryConfig) (before : List LogCall) (call : LogCall)
    (after : List LogCall) :
    let log := (ofConfig config).performAll before
    let reply := (log.perform call).1
    let made := (log.perform call).2
    let later := made.performAll after
    (∀ request index, call.request? = some request → request.MakesSlot →
      reply = .slot (some index) →
      index = log.slots request ∧ made.slots request = index + 1 ∧
      later.Holds index ((request.synthesizable config).followedBy (made.added index after))) ∧
    (∀ request index, log.Holds index request →
      later.Holds index (request.followedBy (log.added index (call :: after)))) ∧
    (reply.IsRefusal ↔ ∃ request, call.request? = some request ∧ log.Refuses request) ∧
    (reply.IsRefusal → made = log ∧ call.onStacks.run log.stacked = (reply, log.stacked)) ∧
    ((before ++ call :: after).mapM LogCall.onStacks).run (ofConfig config).stacked =
      ((ofConfig config).replies (before ++ call :: after), later.stacked) ∧
    (∀ edit ∈ later.stacked.insertions, edit.tokens ≠ []) ∧
    ∀ edit ∈ later.stacked.replacements, edit.tokens ≠ [] := by
  intro log reply made later
  have hperforms : log.Performs call reply made := log.performs_perform call
  refine ⟨fun request index hrequest hslot hreply => ?_, fun request index hheld => ?_,
    hperforms.isRefusal_iff, fun hreply => ?_, ?_, ?_, ?_⟩
  · obtain ⟨hindex, hslots, hheld⟩ := hperforms.slot hrequest hslot hreply
    rw [synthesizable_performAll] at hheld
    exact ⟨hindex, hslots, hheld.performAll after⟩
  · exact hheld.performAll (call :: after)
  · have hmade := hperforms.eq_of_isRefusal hreply
    refine ⟨hmade, ?_⟩
    rw [run_onStacks]
    exact congrArg (reply, EditLog.stacked ·) hmade
  · have hlater : (ofConfig config).performAll (before ++ call :: after) = later := by
      simp [performAll, later, made, log]
    rw [run_mapM_onStacks, hlater]
  · simp [stacked, Insertion.stacked, Insertion.tokens]
  · simp [stacked, Replacement.stacked, Replacement.tokens]

/-- Of three tokens the first may not be recorded, and is then added to the same insertion. The
comma comes when recording is off. A call for an insertion that does not exist leaves the stacks
alone. -/
theorem slots_of_calls_softKeyword :
    let log := (ofConfig {}).performAll [.recordInsert [.comma] none 3]
    let call := LogCall.apply
      (.insert [.restrictedRecord, .identifier, .semicolon] 7 (some .semicolon))
    let after :=
      [LogCall.insertAhead .restrictedRecord 1, .setRecording false, .insertAhead .comma 1,
      .resetConsumed]
    (log.perform call).1 = .slot (some 1) ∧
      ((log.perform call).2.performAll after).Holds 1
        (.insert [.identifier, .semicolon, .restrictedRecord] 7 (some .semicolon)) ∧
      ((log.perform call).2.performAll after).Holds 0 (.insert [.comma] 3 none) ∧
      (LogCall.insertAhead .dot 1).onStacks.run log.stacked = (.added false, log.stacked) := by
  intro log call after
  obtain ⟨hslot, hkept, -⟩ := slots_of_calls {} [.recordInsert [.comma] none 3] call after
  obtain ⟨-, -, -, hrefused, -⟩ :=
    slots_of_calls {} [.recordInsert [.comma] none 3] (.insertAhead .dot 1) []
  have hreply : (log.perform call).1 = .slot (some 1) := by decide
  obtain ⟨-, -, hheld⟩ := hslot _ 1 rfl trivial hreply
  have hfirst : log.Holds 0 (.insert [.comma] 3 none) := ⟨_, rfl, rfl, rfl, rfl⟩
  exact ⟨hreply, hheld, hkept _ 0 hfirst, (hrefused (by decide)).2⟩

end EditLog
end SyntaxRecovery
