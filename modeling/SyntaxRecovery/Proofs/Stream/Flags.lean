import SyntaxRecovery.Proofs.Stream.Applications
import SyntaxRecovery.Proofs.Stream.Merge

/-! Which edits of a log are marked as consumed: after a run those that were so before it, and those
that it has applied. -/
namespace SyntaxRecovery

namespace EditLog
variable {log : EditLog}

/-- The log holds the edit. -/
def records (log : EditLog) : Application → Bool
  | .insertion index => log.insertions[index]?.isSome
  | .replacement index => log.replacements[index]?.isSome
  | .removal index => log.removals[index]?.isSome

/-- The log holds the edit and has it marked as consumed. -/
def isConsumed (log : EditLog) : Application → Bool
  | .insertion index => log.insertions[index]?.any (·.consumed)
  | .replacement index => log.replacements[index]?.any (·.consumed)
  | .removal index => log.removals[index]?.any (·.consumed)

theorem isConsumed_resetConsumed (log : EditLog) (edit : Application) :
    log.resetConsumed.isConsumed edit = false := by
  cases edit with
  | insertion index => cases h : log.insertions[index]? <;> simp [isConsumed, resetConsumed, h]
  | replacement index => cases h : log.replacements[index]? <;> simp [isConsumed, resetConsumed, h]
  | removal index => cases h : log.removals[index]? <;> simp [isConsumed, resetConsumed, h]

theorem Fresh.isConsumed_eq (h : log.Fresh) (edit : Application) : log.isConsumed edit = false := by
  rw [← h]
  exact isConsumed_resetConsumed log edit

theorem eq_of_map_eq_of_any_eq {α : Type} {l l' : List α} {unmark : α → α} {consumed : α → Bool}
    (hinj : ∀ a b, unmark a = unmark b → consumed a = consumed b → a = b)
    (hmap : l'.map unmark = l.map unmark)
    (hany : ∀ i : Nat, l'[i]?.any consumed = l[i]?.any consumed) : l' = l := by
  apply List.ext_getElem?
  intro i
  have hunmark := congrArg (·[i]?) hmap
  have hflag := hany i
  simp only [List.getElem?_map] at hunmark
  cases ha : l'[i]? with
  | none =>
    rw [ha] at hunmark
    exact (Option.map_eq_none_iff.mp hunmark.symm).symm
  | some a =>
    rw [ha] at hunmark hflag
    obtain ⟨b, hb, heq⟩ := Option.map_eq_some_iff.mp hunmark.symm
    rw [hb] at hflag
    rw [hb, hinj a b heq.symm hflag]

/-- A log is its edits and the marks on them. -/
theorem eq_of_isConsumed_eq {other : EditLog} (h : other.resetConsumed = log.resetConsumed)
    (hmark : ∀ edit, other.isConsumed edit = log.isConsumed edit) : other = log := by
  obtain ⟨hconfig, hins, hrep, hrem⟩ := EditLog.mk.inj h
  have hinsertions : other.insertions = log.insertions :=
    eq_of_map_eq_of_any_eq (by grind [Insertion]) hins fun i => hmark (.insertion i)
  have hreplacements : other.replacements = log.replacements :=
    eq_of_map_eq_of_any_eq (by grind [Replacement]) hrep fun i => hmark (.replacement i)
  have hremovals : other.removals = log.removals :=
    eq_of_map_eq_of_any_eq (by grind [Removal]) hrem fun i => hmark (.removal i)
  cases other
  cases log
  cases hconfig
  cases hinsertions
  cases hreplacements
  cases hremovals
  rfl

theorem records_resetConsumed (log : EditLog) (edit : Application) :
    log.resetConsumed.records edit = log.records edit := by
  cases edit <;> simp [records, resetConsumed]

theorem any_getElem?_modify {α : Type} {l : List α} {consumed : α → Bool} {mark : α → α}
    (h : ∀ a, consumed (mark a) = true) (i j : Nat) :
    (l.modify j mark)[i]?.any consumed =
      (l[i]?.any consumed || (decide (j = i) && l[i]?.isSome)) := by
  rw [List.getElem?_modify]
  by_cases hij : j = i
  · cases l[i]? <;> simp [hij, h]
  · cases l[i]? <;> simp [hij]

theorem isConsumed_consume (edit other : Application) :
    (log.consume edit).isConsumed other =
      (log.isConsumed other || (decide (edit = other) && log.records other)) := by
  cases edit with
  | insertion i =>
    cases other with
    | insertion j =>
      rw [show decide (Application.insertion i = .insertion j) = decide (i = j) by simp]
      exact any_getElem?_modify (fun _ => rfl) j i
    | replacement => simp [consume, consumeInsertion, isConsumed]
    | removal => simp [consume, consumeInsertion, isConsumed]
  | replacement i =>
    cases other with
    | insertion => simp [consume, consumeReplacement, isConsumed]
    | replacement j =>
      rw [show decide (Application.replacement i = .replacement j) = decide (i = j) by simp]
      exact any_getElem?_modify (fun _ => rfl) j i
    | removal => simp [consume, consumeReplacement, isConsumed]
  | removal i =>
    cases other with
    | insertion => simp [consume, consumeRemoval, isConsumed]
    | replacement => simp [consume, consumeRemoval, isConsumed]
    | removal j =>
      rw [show decide (Application.removal i = .removal j) = decide (i = j) by simp]
      exact any_getElem?_modify (fun _ => rfl) j i

theorem records_consume (log : EditLog) (edit other : Application) :
    (log.consume edit).records other = log.records other := by
  rw [← records_resetConsumed, resetConsumed_consume, records_resetConsumed]

/-- Exactly the edits that have been applied are consumed, apart from what was so before. -/
theorem isConsumed_foldl (edits : List Application) (other : Application) :
    (edits.foldl consume log).isConsumed other =
      (log.isConsumed other || (decide (other ∈ edits) && log.records other)) := by
  induction edits generalizing log with
  | nil => simp
  | cons edit edits ih =>
    rw [List.foldl_cons, ih, isConsumed_consume, records_consume]
    by_cases h : edit = other
    · subst h
      cases log.records edit <;> simp
    · have hne : other ≠ edit := Ne.symm h
      simp [h, hne]

end EditLog

namespace CorrectedStream
variable {s t : CorrectedStream} {r : Bool} {edits : List Application}
  {answers : List (Except StreamFailure Token)}

theorem Forward.records_eq (h : Forward s t) (edit : Application) :
    t.log.records edit = s.log.records edit :=
  h.eq_of_reset (·.records edit) fun log => log.records_resetConsumed edit

theorem Applies.records {answer : Except StreamFailure Token} (h : s.Applies r edits answer t)
    (hs : s.Inside) : ∀ edit ∈ edits, s.log.records edit := by
  induction h with
  | insertion hd =>
    exact List.forall_mem_singleton.mpr
      (Option.isSome_of_eq_some (EditLog.insertionDue?_some hd).1)
  | failure => exact nofun
  | source => exact nofun
  | replacement hd hn hp =>
    exact List.forall_mem_singleton.mpr
      (Option.isSome_of_eq_some (EditLog.replacementCovering?_some hp).1)
  | removal hd hn hp hm hr rest ih =>
    have hpast := forward_pastRemoval hs hn hm
    have hrest := ih hpast.inside
    simp only [hpast.records_eq] at hrest
    have hfirst := Option.isSome_of_eq_some (EditLog.removalCovering?_getElem? hm)
    exact List.forall_mem_cons.mpr ⟨hfirst, hrest⟩
  | endless hd hn hp hm hr hi =>
    exact List.forall_mem_singleton.mpr
      (Option.isSome_of_eq_some (EditLog.removalCovering?_getElem? hm))

theorem Call.records {answer : Except StreamFailure Token} (h : s.Call edits answer t)
    (hs : s.Inside) : ∀ edit ∈ edits, s.log.records edit := by
  cases h with
  | pending => exact nofun
  | reading _ h => exact h.records hs

/-- A call marks the edits that it applies, and no others. -/
theorem Call.isConsumed_eq {answer : Except StreamFailure Token} (h : s.Call edits answer t)
    (hs : s.Inside) (edit : Application) :
    t.log.isConsumed edit = (s.log.isConsumed edit || decide (edit ∈ edits)) := by
  rw [h.log_eq, EditLog.isConsumed_foldl]
  by_cases he : edit ∈ edits
  · simp [he, h.records hs edit he]
  · simp [he]

theorem Run.isConsumed_eq (h : s.Run answers edits t) (hs : s.Inside) (edit : Application) :
    t.log.isConsumed edit = (s.log.isConsumed edit || decide (edit ∈ edits)) := by
  induction h with
  | nil => simp
  | cons call rest ih =>
    rw [ih (call.forward hs).inside, call.isConsumed_eq hs]
    simp [Bool.or_assoc]

end CorrectedStream
end SyntaxRecovery
