import Mathlib
import SyntaxRecovery.Proofs.Stream.Integrity

/-! Edits that are recorded while the corrected stream is read. One that lies at or ahead of the
scan could not have been met before, so the stream is that of a log which holds it from the
start. -/
namespace SyntaxRecovery

section Lookup
variable {α : Type} {unmark : α → α} {p : α × Nat → Bool} {l more marked : List α} {a : α}
  {index : Nat}

/-- A search that does not look at the marks finds the same in lists that differ in them alone. -/
theorem find?_zipIdx_of_map_eq (h : marked.map unmark = l.map unmark)
    (hp : ∀ a i, p (unmark a, i) = p (a, i)) :
    (marked.zipIdx.find? p).map (Prod.map unmark id) =
      (l.zipIdx.find? p).map (Prod.map unmark id) := by
  have hcomp : p ∘ Prod.map unmark id = p := funext fun x => hp x.1 x.2
  have hmap (l : List α) : (l.map unmark).zipIdx.find? p =
      (l.zipIdx.find? p).map (Prod.map unmark id) := by
    rw [List.zipIdx_map, List.find?_map, hcomp]
  rw [← hmap, h, hmap]

theorem find?_zipIdx_same_some (h : marked.map unmark = l.map unmark)
    (hp : ∀ a i, p (unmark a, i) = p (a, i)) (hl : l.zipIdx.find? p = some (a, index)) :
    ∃ b, marked.zipIdx.find? p = some (b, index) ∧ unmark b = unmark a := by
  have hsame := find?_zipIdx_of_map_eq h hp
  rw [hl, Option.map_some, Option.map_eq_some_iff] at hsame
  obtain ⟨⟨b, i⟩, hb, heq⟩ := hsame
  obtain ⟨hmark, rfl⟩ := Prod.mk.inj heq
  exact ⟨b, hb, hmark⟩

theorem find?_zipIdx_same_none (h : marked.map unmark = l.map unmark)
    (hp : ∀ a i, p (unmark a, i) = p (a, i)) (hl : l.zipIdx.find? p = none) :
    marked.zipIdx.find? p = none := by
  have hsame := find?_zipIdx_of_map_eq h hp
  rw [hl] at hsame
  exact Option.map_eq_none_iff.mp hsame

theorem find?_zipIdx_extend_some (h : marked.map unmark = (l ++ more).map unmark)
    (hp : ∀ a i, p (unmark a, i) = p (a, i)) (hl : l.zipIdx.find? p = some (a, index)) :
    ∃ b, marked.zipIdx.find? p = some (b, index) ∧ unmark b = unmark a := by
  apply find?_zipIdx_same_some h hp
  rw [List.zipIdx_append, List.find?_append, hl]
  rfl

theorem find?_zipIdx_extend_none (h : marked.map unmark = (l ++ more).map unmark)
    (hp : ∀ a i, p (unmark a, i) = p (a, i)) (hl : l.zipIdx.find? p = none)
    (hmore : ∀ a ∈ more, ∀ i, p (a, i) = false) : marked.zipIdx.find? p = none := by
  have hnone : (more.zipIdx (0 + l.length)).find? p = none := by
    apply List.find?_eq_none.mpr
    intro x hx
    simp [hmore x.1 (List.fst_mem_of_mem_zipIdx hx) x.2]
  apply find?_zipIdx_same_none h hp
  rw [List.zipIdx_append, List.find?_append, hl, hnone]
  rfl

theorem any_getElem?_append {consumed : α → Bool}
    (h : ∀ i : Nat, more[i]?.any consumed = false) (i : Nat) :
    (l ++ more)[i]?.any consumed = l[i]?.any consumed := by
  rw [List.getElem?_append]
  split
  · rfl
  · next hi =>
    have hnone : l[i]? = none := List.getElem?_eq_none_iff.mpr (Nat.le_of_not_lt hi)
    rw [hnone, h]
    rfl

end Lookup

namespace EditLog
variable {log more marked : EditLog} {position lowest previous size index : Nat} {span : Span}

/-- The edits of `more` recorded after those of `log`. -/
def append (log more : EditLog) : EditLog :=
  { log with
    insertions := log.insertions ++ more.insertions
    replacements := log.replacements ++ more.replacements
    removals := log.removals ++ more.removals }

theorem append_assoc (log one more : EditLog) :
    (log.append one).append more = log.append (one.append more) := by
  simp [append]

theorem mem_stretches_append {stretch : Nat × Nat} : stretch ∈ (log.append more).stretches ↔
    stretch ∈ log.stretches ∨ stretch ∈ more.stretches := by
  simp only [stretches, append, List.map_append, List.mem_append]
  tauto

theorem isConsumed_append (h : more.Fresh) (edit : Application) :
    (log.append more).isConsumed edit = log.isConsumed edit := by
  cases edit with
  | insertion index =>
    exact any_getElem?_append (fun i => h.isConsumed_eq (.insertion i)) index
  | replacement index =>
    exact any_getElem?_append (fun i => h.isConsumed_eq (.replacement i)) index
  | removal index =>
    exact any_getElem?_append (fun i => h.isConsumed_eq (.removal i)) index

/-- The edits of `marked` are those of `log` and then those of `more`, whatever has been
consumed. -/
def Extends (marked log more : EditLog) : Prop :=
  marked.resetConsumed = (log.append more).resetConsumed

theorem resetConsumed_append (log more : EditLog) :
    (log.append more).resetConsumed = log.resetConsumed.append more.resetConsumed := by
  simp [append, resetConsumed]

theorem resetConsumed_resetConsumed (log : EditLog) :
    log.resetConsumed.resetConsumed = log.resetConsumed := by
  simp [resetConsumed, Function.comp_def]

theorem resetConsumed_foldl (log : EditLog) (edits : List Application) :
    (edits.foldl consume log).resetConsumed = log.resetConsumed := by
  induction edits generalizing log with
  | nil => rfl
  | cons edit edits ih => rw [List.foldl_cons, ih, resetConsumed_consume]

theorem Extends.congr {marked' log' : EditLog} (h : marked.Extends log more)
    (hmarked : marked'.resetConsumed = marked.resetConsumed)
    (hlog : log'.resetConsumed = log.resetConsumed) : marked'.Extends log' more := by
  unfold Extends at h ⊢
  rw [hmarked, h, resetConsumed_append, resetConsumed_append, hlog]

theorem Extends.insertions (h : marked.Extends log more) :
    marked.insertions.map ({ · with consumed := false }) =
      (log.insertions ++ more.insertions).map ({ · with consumed := false }) :=
  congrArg EditLog.insertions h

theorem Extends.replacements (h : marked.Extends log more) :
    marked.replacements.map ({ · with consumed := false }) =
      (log.replacements ++ more.replacements).map ({ · with consumed := false }) :=
  congrArg EditLog.replacements h

theorem Extends.removals (h : marked.Extends log more) :
    marked.removals.map ({ · with consumed := false }) =
      (log.removals ++ more.removals).map ({ · with consumed := false }) :=
  congrArg EditLog.removals h

theorem Extends.insertionDue?_some (h : marked.Extends log more) {edit : Insertion}
    (hd : log.insertionDue? position lowest = some (edit, index)) :
    ∃ other, marked.insertionDue? position lowest = some (other, index) ∧
      other.first = edit.first ∧ other.others = edit.others := by
  obtain ⟨other, ho, heq⟩ :=
    find?_zipIdx_extend_some h.insertions (fun _ _ => rfl) hd
  obtain ⟨hfirst, hothers, -⟩ := Insertion.mk.inj heq
  exact ⟨other, ho, hfirst, hothers⟩

theorem Extends.insertionDue?_none (h : marked.Extends log more)
    (hd : log.insertionDue? position lowest = none)
    (hmore : ∀ edit ∈ more.insertions, edit.anchor + 1 ≠ position) :
    marked.insertionDue? position lowest = none := by
  apply find?_zipIdx_extend_none h.insertions (fun _ _ => rfl) hd
  intro edit he i
  simp [hmore edit he]

theorem Extends.replacementCovering?_some (h : marked.Extends log more) {edit : Replacement}
    (hd : log.replacementCovering? previous span = some (edit, index)) :
    ∃ other, marked.replacementCovering? previous span = some (other, index) ∧
      other.first = edit.first ∧ other.others = edit.others ∧ other.last = edit.last := by
  obtain ⟨other, ho, heq⟩ :=
    find?_zipIdx_extend_some h.replacements (fun _ _ => rfl) hd
  obtain ⟨hfirst, hothers, -, hlast, -⟩ := Replacement.mk.inj heq
  exact ⟨other, ho, hfirst, hothers, hlast⟩

theorem Extends.replacementCovering?_none (h : marked.Extends log more)
    (hd : log.replacementCovering? previous span = none)
    (hmore : ∀ stretch ∈ more.stretches, span.start < stretch.1) :
    marked.replacementCovering? previous span = none := by
  apply find?_zipIdx_extend_none h.replacements (fun _ _ => rfl) hd
  intro edit he i
  have hlt := hmore _ (mem_stretches_of_replacement he)
  simp only [decide_eq_false_iff_not]
  rintro ⟨-, hle, -⟩
  exact absurd hle (Nat.not_le_of_lt hlt)

theorem Extends.removalCovering?_some (h : marked.Extends log more) {edit : Removal}
    (hd : log.removalCovering? previous span = some (edit, index)) :
    ∃ other, marked.removalCovering? previous span = some (other, index) ∧
      other.start = edit.start ∧ other.last = edit.last := by
  obtain ⟨other, ho, heq⟩ :=
    find?_zipIdx_extend_some h.removals (fun _ _ => rfl) hd
  obtain ⟨hstart, hlast, -⟩ := Removal.mk.inj heq
  exact ⟨other, ho, hstart, hlast⟩

theorem Extends.removalCovering?_none (h : marked.Extends log more)
    (hd : log.removalCovering? previous span = none)
    (hmore : ∀ stretch ∈ more.stretches, span.start < stretch.1) :
    marked.removalCovering? previous span = none := by
  apply find?_zipIdx_extend_none h.removals (fun _ _ => rfl) hd
  intro edit he i
  have hlt := hmore _ (mem_stretches_of_removal he)
  simp only [decide_eq_false_iff_not]
  rintro ⟨-, hle, -⟩
  exact absurd hle (Nat.not_le_of_lt hlt)

/-- The edits lie at `position` or ahead of it, and that is before the end of a source of `size`
bytes. -/
structure AheadOf (log : EditLog) (position size : Nat) : Prop where
  insertions : ∀ edit ∈ log.insertions, position < size ∧ position ≤ edit.anchor + 1
  stretches : ∀ stretch ∈ log.stretches, position < size ∧ position ≤ stretch.1

theorem AheadOf.mono {before : Nat} (h : log.AheadOf position size) (hle : before ≤ position) :
    log.AheadOf before size := by
  constructor
  · intro edit he
    have := h.insertions edit he
    omega
  · intro stretch hs
    have := h.stretches stretch hs
    omega

theorem AheadOf.append (h : log.AheadOf position size) (h' : more.AheadOf position size) :
    (log.append more).AheadOf position size := by
  constructor
  · intro edit he
    exact (List.mem_append.mp he).elim (h.insertions edit) (h'.insertions edit)
  · intro stretch hs
    exact (mem_stretches_append.mp hs).elim (h.stretches stretch) (h'.stretches stretch)

end EditLog

namespace CorrectedStream
variable {s t : CorrectedStream} {r : Bool} {edits : List Application} {token : Token}
  {marked more : EditLog} {kind : TokenKind} {scanner : Scanner} {place index : Nat}

/-- The stream with another log in the place of its own. -/
def withLog (s : CorrectedStream) (log : EditLog) : CorrectedStream := { s with log }

theorem isSome_insertDue? : (s.insertDue? r).isSome =
    (s.log.insertionDue? s.position s.insertFrom).isSome :=
  Option.isSome_map

/-- What lies ahead of a place behind the token just read does not reach that token. -/
theorem beyond_of_aheadOf (hs : s.Inside) (hn : s.scanner.next = (.ok kind, scanner))
    (hplace : scanner.position ≤ place) (h : more.AheadOf place s.scanner.source.length) :
    (∀ edit ∈ more.insertions, edit.anchor + 1 ≠ s.position) ∧
      ∀ stretch ∈ more.stretches, (scanner.token kind).span.start < stretch.1 := by
  have hstep := hs.steps hn
  have hread : place < s.scanner.source.length → scanner.tokenStart < place := by
    intro hlt
    have hk : kind ≠ .endOfSource := by
      rintro rfl
      have := (Scanner.next_endOfSource hn hs).2
      omega
    exact Nat.lt_of_lt_of_le (hstep.start_lt hk) hplace
  have hstart : s.position ≤ scanner.tokenStart := hstep.position_le_start
  constructor
  · intro edit he
    obtain ⟨hlt, hle⟩ := h.insertions edit he
    have := hread hlt
    omega
  · intro stretch hstretch
    obtain ⟨hlt, hle⟩ := h.stretches stretch hstretch
    exact Nat.lt_of_lt_of_le (hread hlt) hle

/-- A call goes the same way where the log holds further edits ahead of the place it comes to. -/
theorem Applies.withLog {answer : Except StreamFailure Token} (h : s.Applies r edits answer t)
    (hanswer : answer = .ok token) (hs : s.Inside) (hlog : marked.Extends s.log more)
    (hahead : more.AheadOf t.position s.scanner.source.length) :
    (s.withLog marked).Applies r edits answer (t.withLog (edits.foldl EditLog.consume marked)) := by
  induction h generalizing marked with
  | @insertion s r edit index hd =>
    obtain ⟨other, ho, hfirst, hothers⟩ := hlog.insertionDue?_some hd
    have h : (s.withLog marked).Applies r [.insertion index] _ _ := .insertion ho
    rw [hfirst, hothers] at h
    exact h
  | failure => cases hanswer
  | @source s r kind scanner hd hn hp hm =>
    obtain ⟨hdue, hcover⟩ := beyond_of_aheadOf hs hn (Nat.le_refl _) hahead
    exact .source (s := s.withLog marked) (hlog.insertionDue?_none hd hdue) hn
      (hlog.replacementCovering?_none hp hcover) (hlog.removalCovering?_none hm hcover)
  | @replacement s r kind scanner edit index hd hn hp =>
    have hplace := position_le_resumeAfter hs hn (EditLog.replacementCovering?_some hp).2
    obtain ⟨hdue, -⟩ := beyond_of_aheadOf hs hn hplace hahead
    obtain ⟨other, ho, hfirst, hothers, hlast⟩ := hlog.replacementCovering?_some hp
    have h : (s.withLog marked).Applies r [.replacement index] _ _ :=
      .replacement (hlog.insertionDue?_none hd hdue) hn ho
    simp only [pastReplacement, hfirst, hothers, hlast] at h
    exact h
  | @removal s t r kind scanner edit index edits answer hd hn hp hm hr rest ih =>
    have hpast := forward_pastRemoval hs hn hm
    have hplace := Nat.le_trans (position_le_resumeAfter hs hn (EditLog.removalCovering?_some hm).2)
      (rest.forward hpast.inside).position_le
    obtain ⟨hdue, hcover⟩ := beyond_of_aheadOf hs hn hplace hahead
    obtain ⟨other, ho, hstart, hlast⟩ := hlog.removalCovering?_some hm
    have hstream : (s.withLog marked).pastRemoval scanner other index =
        (s.pastRemoval scanner edit index).withLog (marked.consumeRemoval index) := by
      simp only [pastRemoval, hlast]
      rfl
    have hconsumed : (marked.consumeRemoval index).Extends
        (s.pastRemoval scanner edit index).log more :=
      hlog.congr (EditLog.resetConsumed_consume _ (.removal _)) hpast.edits_eq
    have hrest := ih hanswer hpast.inside hconsumed (hpast.source_eq ▸ hahead)
    rw [← hstream] at hrest
    refine .removal (s := s.withLog marked) (hlog.insertionDue?_none hd hdue) hn
      (hlog.replacementCovering?_none hp hcover) ho ?_ hrest
    rw [hstart, hlast, hstream]
    refine hr.imp_right fun hsome => ?_
    rw [isSome_insertDue?] at hsome ⊢
    obtain ⟨⟨due, i⟩, hi⟩ := Option.isSome_iff_exists.mp hsome
    obtain ⟨found, hfound, -⟩ := hconsumed.insertionDue?_some hi
    exact Option.isSome_of_eq_some hfound
  | endless => cases hanswer

theorem Call.withLog {answer : Except StreamFailure Token} (h : s.Call edits answer t)
    (hanswer : answer = .ok token) (hs : s.Inside) (hlog : marked.Extends s.log more)
    (hahead : more.AheadOf t.position s.scanner.source.length) :
    (s.withLog marked).Call edits answer (t.withLog (edits.foldl EditLog.consume marked)) := by
  cases h with
  | pending hp => exact .pending (s := s.withLog marked) hp
  | reading hp h => exact .reading hp (h.withLog hanswer hs hlog hahead)

end CorrectedStream

/-- The request is for a new edit at `position` or ahead of it. -/
def EditRequest.AheadOf (request : EditRequest) (position : Nat) : Prop :=
  match request with
  | .insert _ anchor _ => position ≤ anchor + 1
  | .insertAhead _ _ => False
  | .replace _ start _ => position ≤ start
  | .remove start _ => position ≤ start

namespace EditLog
variable {log after : EditLog} {position size index : Nat}

/-- What a request adds to the log is one edit, which has not been consumed. -/
theorem apply_ahead {request : EditRequest} (h : log.apply request = some (index, after))
    (hahead : request.AheadOf position) (hlt : position < size) :
    ∃ one, one.Fresh ∧ one.AheadOf position size ∧ after = log.append one := by
  cases request with
  | insert tokens anchor completes =>
    simp only [apply, recordInsert] at h
    split at h
    · cases h
    · next first others htokens =>
      split at h
      · cases h
        refine ⟨{ insertions := [⟨first, others, anchor, completes, false⟩] }, rfl,
          ⟨?_, by simp [stretches]⟩, ?_⟩
        · simpa using ⟨hlt, hahead⟩
        · simp [append]
      · cases h
  | insertAhead => exact absurd hahead id
  | replace tokens start last =>
    simp only [apply, recordReplace] at h
    split at h
    · cases h
    · next first others htokens =>
      split at h
      · cases h
        refine ⟨{ replacements := [⟨first, others, start, last, false⟩] }, rfl,
          ⟨by simp, ?_⟩, ?_⟩
        · simpa [stretches] using ⟨hlt, hahead⟩
        · simp [append]
      · cases h
  | remove start last =>
    simp only [apply, recordRemove] at h
    split at h
    · cases h
      refine ⟨{ removals := [⟨start, last, false⟩] }, rfl, ⟨by simp, ?_⟩, ?_⟩
      · simpa [stretches] using ⟨hlt, hahead⟩
      · simp [append]
    · cases h

end EditLog

namespace CorrectedStream
variable {text : String} {initial marked : EditLog} {tokens : List Token} {token : Token}
  {s t : CorrectedStream} {r : Bool} {edits : List Application}

/-- Calls that hand out `tokens` and end in `s`, between which edits are recorded at the scan or
ahead of it, as long as it has not come to the end of the source. -/
inductive Interleaved (text : String) (initial : EditLog) : List Token → CorrectedStream → Prop
  | start : Interleaved text initial [] (ofText text initial)
  | call {tokens : List Token} {token : Token} {s t : CorrectedStream}
    (before : Interleaved text initial tokens s) (hnext : s.next = (.ok token, t)) :
    Interleaved text initial (tokens ++ [token]) t
  | record {tokens : List Token} {s : CorrectedStream} {request : EditRequest} {index : Nat}
    {log : EditLog} (before : Interleaved text initial tokens s)
    (hrecord : s.log.apply request = some (index, log))
    (hlt : s.position < s.scanner.source.length) (hahead : request.AheadOf s.position) :
    Interleaved text initial tokens (s.withLog log)

/-- However the log of `s` may still grow ahead of the scan, a stream that has all of it from the
start hands out `tokens`, applies `edits` and ends where `s` stands. -/
structure Anticipates (text : String) (initial : EditLog) (tokens : List Token)
    (edits : List Application) (s : CorrectedStream) : Prop where
  source_eq : s.scanner.source = Bytes.ofText text
  inside : s.Inside
  run : ∀ more : EditLog, more.AheadOf s.position s.scanner.source.length →
    ∀ marked, marked = (s.log.append more).resetConsumed →
      (ofText text marked).Run (tokens.map .ok) edits
        (s.withLog (edits.foldl EditLog.consume marked))
  consumed : ∀ edit, s.log.isConsumed edit = (initial.isConsumed edit || decide (edit ∈ edits))

namespace Anticipates

theorem start : Anticipates text initial [] [] (ofText text initial) where
  source_eq := rfl
  inside := Nat.zero_le _
  run := fun _ _ _ _ => .nil
  consumed := by simp [ofText, ofScanner]

theorem call {more : List Application} (h : Anticipates text initial tokens edits s)
    (call : s.Call more (.ok token) t) :
    Anticipates text initial (tokens ++ [token]) (edits ++ more) t := by
  have hgo := call.forward h.inside
  refine ⟨hgo.source_eq.trans h.source_eq, hgo.inside, ?_, ?_⟩
  · intro later hahead marked hmarked
    rw [hgo.source_eq] at hahead
    have hlog : (t.log.append later).resetConsumed = (s.log.append later).resetConsumed := by
      rw [EditLog.resetConsumed_append, EditLog.resetConsumed_append, hgo.edits_eq]
    have hrun := h.run later (hahead.mono hgo.position_le) marked (hmarked.trans hlog)
    have hextends : (edits.foldl EditLog.consume marked).Extends s.log later := by
      unfold EditLog.Extends
      rw [EditLog.resetConsumed_foldl, hmarked.trans hlog, EditLog.resetConsumed_resetConsumed]
    rw [List.map_append, List.foldl_append]
    exact hrun.snoc (call.withLog rfl h.inside hextends hahead)
  · intro edit
    rw [call.isConsumed_eq h.inside, h.consumed]
    simp [Bool.or_assoc]

theorem record {request : EditRequest} {index : Nat} {log : EditLog}
    (h : Anticipates text initial tokens edits s)
    (hrecord : s.log.apply request = some (index, log))
    (hlt : s.position < s.scanner.source.length) (hahead : request.AheadOf s.position) :
    Anticipates text initial tokens edits (s.withLog log) := by
  obtain ⟨one, hfresh, hone, rfl⟩ := EditLog.apply_ahead hrecord hahead hlt
  refine ⟨h.source_eq, h.inside, ?_, ?_⟩
  · intro more hmore marked hmarked
    have hboth : (s.log.append one).append more = s.log.append (one.append more) :=
      EditLog.append_assoc ..
    exact h.run (one.append more) (hone.append hmore) marked (hboth ▸ hmarked)
  · intro edit
    exact (EditLog.isConsumed_append hfresh edit).trans (h.consumed edit)

end Anticipates

theorem Interleaved.anticipates (h : Interleaved text initial tokens s) :
    ∃ edits, Anticipates text initial tokens edits s := by
  induction h with
  | start => exact ⟨[], .start⟩
  | call before hnext ih =>
    obtain ⟨edits, hedits⟩ := ih
    obtain ⟨more, call⟩ := next_eq_iff.mp hnext
    exact ⟨edits ++ more, hedits.call call⟩
  | record before hrecord hlt hahead ih =>
    obtain ⟨edits, hedits⟩ := ih
    exact ⟨edits, hedits.record hrecord hlt hahead⟩

/-- Edits recorded on the way, at the scan or ahead of it, make no difference: as many calls to a
stream that has all of them from the start, none consumed, hand out the same tokens and come to the
same place. They consume the same edits, but for those that were consumed before the first call:
where there were none the two streams end up the same, marks and all. The source has less than 4
GiB, and so the offsets of the tokens have 32 bits. -/
theorem Interleaved.tokens_eq_upfront (hsize : (Bytes.ofText text).length < Nat.pow 2 32)
    (h : Interleaved text initial tokens s) :
    ∃ t, (ofText text s.log.resetConsumed).calls tokens.length = (tokens.map .ok, t) ∧
      s = t.withLog s.log ∧ t.log.resetConsumed = s.log.resetConsumed ∧
      (∀ edit, s.log.isConsumed edit = (initial.isConsumed edit || t.log.isConsumed edit)) ∧
      (initial.Fresh → s = t) ∧ ∀ token ∈ tokens, token.span.FitsWords := by
  obtain ⟨edits, hedits⟩ := h.anticipates
  have hempty : ({} : EditLog).AheadOf s.position s.scanner.source.length :=
    ⟨by simp, by simp [EditLog.stretches]⟩
  have hlog : (s.log.append {}).resetConsumed = s.log.resetConsumed := by
    simp [EditLog.append]
  have hrun := hedits.run {} hempty s.log.resetConsumed hlog.symm
  let t := s.withLog (edits.foldl EditLog.consume s.log.resetConsumed)
  have hcalls : (ofText text s.log.resetConsumed).calls tokens.length = (tokens.map .ok, t) :=
    calls_eq_iff.mpr ⟨List.length_map .., edits, hrun⟩
  have hsame : t.log.resetConsumed = s.log.resetConsumed :=
    (EditLog.resetConsumed_foldl _ _).trans (EditLog.resetConsumed_resetConsumed _)
  have hmarks : ∀ edit, s.log.isConsumed edit =
      (initial.isConsumed edit || t.log.isConsumed edit) := by
    intro edit
    have hmarked := hrun.isConsumed_eq (Nat.zero_le _) edit
    have hcleared : (ofText text s.log.resetConsumed).log.isConsumed edit = false :=
      EditLog.isConsumed_resetConsumed _ edit
    rw [hedits.consumed, hmarked, hcleared, Bool.false_or]
  refine ⟨t, hcalls, rfl, hsame, hmarks, ?_, ?_⟩
  · intro hfresh
    have hlogs : s.log = t.log := by
      apply EditLog.eq_of_isConsumed_eq hsame.symm
      intro edit
      rw [hmarks, hfresh.isConsumed_eq, Bool.false_or]
    show s = s.withLog t.log
    rw [← hlogs]
    rfl
  · intro token ht
    exact fitsWords_of_calls hsize hcalls token (List.mem_map_of_mem ht)

/-- The stream of `a b` when `a` has been read. -/
def afterFirst : CorrectedStream := (ofText "a b" {}).next.2

/-- What is recorded then: `b` is removed and a comma is put behind it. -/
def lateEdits : EditLog where
  insertions := [⟨.comma, [], 2, none, false⟩]
  removals := [⟨2, 2, false⟩]

/-- The stream one call later. -/
def afterLateEdits : CorrectedStream := (afterFirst.withLog lateEdits).next.2

def lateTokens : List Token :=
  [⟨.identifier, ⟨0, 1⟩, "a", .source⟩, ⟨.comma, ⟨3, 3⟩, "", .inserted⟩]

theorem interleaved_lateTokens : Interleaved "a b" {} lateTokens afterLateEdits := by
  have hposition : afterFirst.position = 1 := by cbv
  have hlength : afterFirst.scanner.source.length = 3 := by cbv
  have hlt : afterFirst.position < afterFirst.scanner.source.length := by omega
  have hremove : afterFirst.log.apply (.remove 2 2) =
      some (0, { removals := [⟨2, 2, false⟩] }) := by
    rw [show afterFirst.log = {} by cbv]
    rfl
  have hinsert : EditLog.apply { removals := [⟨2, 2, false⟩] } (.insert [.comma] 2 none) =
      some (0, lateEdits) := rfl
  have hstart : Interleaved "a b" {} [⟨.identifier, ⟨0, 1⟩, "a", .source⟩] afterFirst :=
    .call .start (Prod.ext (by cbv) rfl)
  have hremoved := hstart.record hremove hlt (show afterFirst.position ≤ 2 by omega)
  have hinserted := hremoved.record hinsert hlt (show afterFirst.position ≤ 3 by omega)
  exact hinserted.call (Prod.ext (by cbv) rfl)

theorem tokens_eq_upfront_lateTokens : (Bytes.ofText "a b").length < Nat.pow 2 32 ∧
    Interleaved "a b" {} lateTokens afterLateEdits ∧ ({} : EditLog).Fresh ∧
    (ofText "a b" afterLateEdits.log.resetConsumed).calls 2 =
      (lateTokens.map .ok, afterLateEdits) := by
  have hsize : (Bytes.ofText "a b").length < Nat.pow 2 32 := by decide +kernel
  have hfresh : ({} : EditLog).Fresh := rfl
  obtain ⟨t, hcalls, -, -, -, hsame, -⟩ := interleaved_lateTokens.tokens_eq_upfront hsize
  obtain rfl : afterLateEdits = t := hsame hfresh
  exact ⟨hsize, interleaved_lateTokens, hfresh, hcalls⟩

/-- An insertion behind a blank, consumed by an earlier stream. -/
def consumedBefore : EditLog where
  insertions := [⟨.semicolon, [], 0, none, true⟩]

/-- The end of the blank is all that the first call hands out, before it comes to the insertion.
This one stays marked, where it would not be in a stream that has it unmarked from the start. -/
theorem isConsumed_consumedBefore : ∃ s t,
    Interleaved " " consumedBefore [⟨.endOfSource, ⟨1, 1⟩, "", .source⟩] s ∧
      (ofText " " s.log.resetConsumed).calls 1 =
        ([.ok ⟨.endOfSource, ⟨1, 1⟩, "", .source⟩], t) ∧
      s.log.isConsumed (.insertion 0) = true ∧ t.log.isConsumed (.insertion 0) = false := by
  have hanswer : (ofText " " consumedBefore).next.1 =
      .ok ⟨.endOfSource, ⟨1, 1⟩, "", .source⟩ := by cbv
  have hmarked : (ofText " " consumedBefore).next.2.log = consumedBefore := by cbv
  let upfront : List (Except StreamFailure Token) × CorrectedStream :=
    (ofText " " consumedBefore.resetConsumed).calls 1
  have hcalls : upfront.1 = [.ok ⟨.endOfSource, ⟨1, 1⟩, "", .source⟩] := by cbv
  have hcleared : upfront.2.log.isConsumed (.insertion 0) = false := by cbv
  have hinterleaved : Interleaved " " consumedBefore [⟨.endOfSource, ⟨1, 1⟩, "", .source⟩] _ :=
    .call .start (Prod.ext hanswer rfl)
  refine ⟨_, upfront.2, hinterleaved, ?_, ?_, hcleared⟩
  · rw [hmarked]
    exact Prod.ext hcalls rfl
  · rw [hmarked]
    rfl

end CorrectedStream
end SyntaxRecovery
