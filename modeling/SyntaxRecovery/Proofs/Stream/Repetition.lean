import Mathlib
import SyntaxRecovery.Proofs.Stream.Integrity
import SyntaxRecovery.Proofs.Stream.Termination

/-! How often the corrected stream applies an insertion. It passes over each at the place where that
is due and never comes back, but for the end of the source: there a replacement or a removal that is
met leaves the scan where it is, and what has been inserted there is due once more. -/
namespace SyntaxRecovery

namespace EditLog

/-- The last byte before the tokens of an insertion. -/
def anchor? (log : EditLog) (index : Nat) : Option Nat := log.insertions[index]?.map (·.anchor)

theorem anchor?_resetConsumed (log : EditLog) (index : Nat) :
    log.resetConsumed.anchor? index = log.anchor? index := by
  simp [anchor?, resetConsumed, Function.comp_def]

/-- How many of `edits` replace or remove something that starts at `offset`. -/
def startingAt (log : EditLog) (offset : Nat) (edits : List Application) : Nat :=
  edits.countP fun edit => (log.stretch? edit).any (·.1 = offset)

theorem startingAt_append (log : EditLog) (offset : Nat) (edits more : List Application) :
    log.startingAt offset (edits ++ more) =
      log.startingAt offset edits + log.startingAt offset more :=
  List.countP_append

theorem startingAt_congr {log other : EditLog} (h : ∀ edit, other.stretch? edit = log.stretch? edit)
    (offset : Nat) (edits : List Application) :
    other.startingAt offset edits = log.startingAt offset edits := by
  simp only [startingAt, h]

/-- At the end of the source no more than one edit is met. -/
theorem Ascends.startingAt_le_one {log : EditLog} {edits : List Application} {low high : Nat}
    (h : log.Ascends edits low high) (offset : Nat) : log.startingAt offset edits ≤ 1 := by
  let meets (edit : Application) : Bool := (log.stretch? edit).any (·.1 = offset)
  have hstart : ∀ edit ∈ edits.filter meets, ∃ stretch ∈ log.stretch? edit, stretch.1 = offset := by
    intro edit he
    simpa [meets, Option.any_eq_true] using (List.mem_filter.mp he).2
  have hpair := h.pairwise.filter meets
  rw [startingAt, List.countP_eq_length_filter]
  change (edits.filter meets).length ≤ 1
  match edits.filter meets, hstart, hpair with
  | [], _, _ => exact Nat.zero_le 1
  | [_], _, _ => exact Nat.le_refl 1
  | a :: b :: rest, hstart, hpair =>
    obtain ⟨first, hfirst, ha⟩ := hstart a (by simp)
    obtain ⟨second, hsecond, hb⟩ := hstart b (by simp)
    have hlt := (List.pairwise_cons.mp hpair).1 b (by simp) first hfirst second hsecond
    omega

/-- The kinds that an edit inserts. -/
def insertedKinds (log : EditLog) : Application → List TokenKind
  | .insertion index => (log.insertions[index]?.map (·.tokens)).getD []
  | _ => []

theorem insertedKinds_resetConsumed (log : EditLog) (edit : Application) :
    log.resetConsumed.insertedKinds edit = log.insertedKinds edit := by
  cases edit with
  | insertion index =>
    simp only [insertedKinds, resetConsumed, List.getElem?_map, Option.map_map]
    rfl
  | replacement => rfl
  | removal => rfl

end EditLog

namespace CorrectedStream
variable {s t : CorrectedStream} {r : Bool} {edits more : List Application} {token : Token}
  {answer : Except StreamFailure Token} {due index anchor start last : Nat} {kind : TokenKind}
  {scanner : Scanner}

theorem Forward.anchor?_eq (h : Forward s t) (index : Nat) :
    t.log.anchor? index = s.log.anchor? index :=
  h.eq_of_reset (·.anchor? index) fun log => log.anchor?_resetConsumed index

/-- The stream is past the insertion at `index`, due at the offset `due`. -/
def Past (s : CorrectedStream) (due index : Nat) : Prop :=
  due < s.position ∨ due = s.position ∧ index < s.insertFrom

instance (s : CorrectedStream) (due index : Nat) : Decidable (s.Past due index) :=
  inferInstanceAs (Decidable (_ ∨ _ ∧ _))

/-- How often the insertion at `index` can come yet, as long as the scan goes forward. -/
def credit (s : CorrectedStream) (due index : Nat) : Nat := if s.Past due index then 0 else 1

theorem credit_le_one (s : CorrectedStream) : s.credit due index ≤ 1 := by
  unfold credit
  split <;> omega

theorem credit_le_of_past (h : s.Past due index → t.Past due index) :
    t.credit due index ≤ s.credit due index := by
  unfold credit
  split
  · omega
  · next ht => exact Nat.le_of_eq (if_neg fun hs => ht (h hs)).symm

theorem credit_le_of_position_lt (h : s.position < t.position) :
    t.credit due index ≤ s.credit due index := by
  apply credit_le_of_past
  rintro (hs | ⟨rfl, -⟩)
  · exact .inl (Nat.lt_trans hs h)
  · exact .inl h

/-- Behind an edit the scan has gone forward, unless the edit starts at the end of the source. -/
theorem credit_resumeAfter_le (due index : Nat) (hs : s.Inside)
    (hn : s.scanner.next = (.ok kind, scanner))
    (hc : EditCovers s.editFloor (scanner.token kind).span start last) :
    ((s.readOn scanner).resumeAfter last).credit due index ≤ s.credit due index +
      if due = s.scanner.source.length ∧ start = s.scanner.source.length then 1 else 0 := by
  have hstep := hs.steps hn
  have hsource : (s.readOn scanner).scanner.source = s.scanner.source := hstep.source_eq
  have hposition := position_resumeAfter (s.readOn scanner) last
  rw [hsource] at hposition
  by_cases hlt : s.position < ((s.readOn scanner).resumeAfter last).position
  · exact Nat.le_add_right_of_le (credit_le_of_position_lt hlt)
  · obtain ⟨h1, h2, h3⟩ := hc
    simp only [Scanner.token] at h2 h3
    have hfloor : s.position ≤ s.editFloor := Nat.le_max_left _ _
    have hstart : s.position ≤ scanner.tokenStart := hstep.position_le_start
    have hstop := hstep.position_le_length
    -- What has been read holds no byte, so it is the end of the source.
    have hkind : kind = .endOfSource := by
      rcases Decidable.em (kind = .endOfSource) with hk | hk
      · exact hk
      · have := hstep.start_lt hk
        omega
    subst hkind
    obtain ⟨hend, hend'⟩ := Scanner.next_endOfSource hn hs
    split
    · exact Nat.le_add_left_of_le (credit_le_one _)
    · next hne =>
      have hdue : due ≠ s.scanner.source.length := fun h => hne ⟨h, by omega⟩
      apply credit_le_of_past
      rintro (hpast | ⟨rfl, -⟩)
      · exact .inl (by omega)
      · exact absurd (by omega) hdue

/-- What is left of the credit after an answer, where the stream goes on. -/
def creditAfter (t : CorrectedStream) (due index : Nat) : Except StreamFailure Token → Nat
  | .ok token => if token.kind = .endOfSource then 0 else t.credit due index
  | .error _ => 0

theorem creditAfter_le : t.creditAfter due index answer ≤ t.credit due index := by
  cases answer with
  | ok token =>
    show (if token.kind = .endOfSource then 0 else t.credit due index) ≤ t.credit due index
    split
    · exact Nat.zero_le _
    · exact Nat.le_refl _
  | error => exact Nat.zero_le _

/-- How often `edits` make an insertion due at `due` come once more. -/
def repeats (s : CorrectedStream) (due : Nat) (edits : List Application) : Nat :=
  if due = s.scanner.source.length then s.log.startingAt due edits else 0

theorem repeats_append (s : CorrectedStream) (due : Nat) (edits more : List Application) :
    s.repeats due (edits ++ more) = s.repeats due edits + s.repeats due more := by
  unfold repeats
  split
  · exact EditLog.startingAt_append _ _ _ _
  · rfl

theorem Forward.repeats_eq (h : Forward s t) (due : Nat) (edits : List Application) :
    t.repeats due edits = s.repeats due edits := by
  unfold repeats
  rw [h.source_eq, EditLog.startingAt_congr h.stretch?_eq]

theorem repeats_single (due : Nat) {edit : Application} {stretch : Nat × Nat}
    (h : s.log.stretch? edit = some stretch) :
    (if due = s.scanner.source.length ∧ stretch.1 = s.scanner.source.length then 1 else 0) ≤
      s.repeats due [edit] := by
  unfold repeats EditLog.startingAt
  split
  · next hend =>
    rw [if_pos hend.1, List.countP_singleton, h]
    simp [hend.1, hend.2]
  · exact Nat.zero_le _

/-- A step pays for the insertion with its credit. -/
theorem Applies.count_insertion_le (h : s.Applies r edits answer t) (hs : s.Inside)
    (ha : s.log.anchor? index = some anchor) :
    edits.count (.insertion index) + t.creditAfter (anchor + 1) index answer ≤
      s.credit (anchor + 1) index + s.repeats (anchor + 1) edits := by
  induction h with
  | @insertion s r edit other hd =>
    obtain ⟨hget, hdue, hle⟩ := EditLog.insertionDue?_some hd
    refine Nat.le_add_right_of_le (Nat.le_trans (Nat.add_le_add_left creditAfter_le _) ?_)
    rw [List.count_singleton]
    by_cases heq : other = index
    · subst heq
      obtain rfl : edit.anchor = anchor := by simpa [EditLog.anchor?, hget] using ha
      have hbefore : ¬ s.Past (edit.anchor + 1) other := by
        rintro (hlt | ⟨-, hlt⟩) <;> omega
      have hafter : (emit (s.pastInsertion other r) .inserted s.position edit.first
          edit.others).2.Past (edit.anchor + 1) other := .inr ⟨hdue, Nat.lt_succ_self other⟩
      simp [credit, hbefore, hafter]
    · have hcount : ((Application.insertion other == .insertion index) : Bool) = false := by
        simpa using heq
      rw [hcount]
      simp only [Bool.false_eq_true, if_false, Nat.zero_add]
      apply credit_le_of_past
      rintro (hlt | ⟨hat, hlt⟩)
      · exact .inl hlt
      · exact .inr ⟨hat, Nat.lt_trans (Nat.lt_of_lt_of_le hlt hle) (Nat.lt_succ_self other)⟩
  | failure hd hn => exact Nat.zero_le _
  | @source s r kind scanner hd hn hp hm =>
    have hstep := hs.steps hn
    apply Nat.le_add_right_of_le
    rw [List.count_nil, Nat.zero_add]
    show (if kind = .endOfSource then 0 else _) ≤ _
    split
    · exact Nat.zero_le _
    · next hk =>
      exact credit_le_of_position_lt
        (Nat.lt_of_le_of_lt hstep.position_le_start (hstep.start_lt hk))
  | @replacement s r kind scanner edit other hd hn hp =>
    have hcredit := credit_resumeAfter_le (anchor + 1) index hs hn
      (EditLog.replacementCovering?_some hp).2
    have hrepeats := repeats_single (anchor + 1) (EditLog.stretch?_of_replacementCovering? hp)
    have hcount : [Application.replacement other].count (.insertion index) = 0 := rfl
    rw [hcount, Nat.zero_add]
    apply Nat.le_trans creditAfter_le
    exact Nat.le_trans hcredit (Nat.add_le_add_left hrepeats _)
  | @removal s t r kind scanner edit other edits answer hd hn hp hm hr rest ih =>
    have hpast := forward_pastRemoval hs hn hm
    have hcredit : (s.pastRemoval scanner edit other).credit (anchor + 1) index ≤ _ :=
      credit_resumeAfter_le (anchor + 1) index hs hn
        (EditLog.removalCovering?_some hm).2
    have hrepeats := repeats_single (anchor + 1) (EditLog.stretch?_of_removalCovering? hm)
    have hone : (s.pastRemoval scanner edit other).credit (anchor + 1) index ≤
        s.credit (anchor + 1) index + s.repeats (anchor + 1) [.removal other] :=
      Nat.le_trans hcredit (Nat.add_le_add_left hrepeats _)
    have hrest := ih hpast.inside ((hpast.anchor?_eq index).trans ha)
    have hcount : (Application.removal other :: edits).count (.insertion index) =
        edits.count (.insertion index) := List.count_cons_of_ne (by nofun)
    rw [hpast.repeats_eq] at hrest
    rw [hcount, ← List.singleton_append, repeats_append]
    omega
  | endless hd hn hp hm hr hi => exact Nat.zero_le _

theorem Call.count_insertion_le (h : s.Call edits answer t) (hs : s.Inside)
    (ha : s.log.anchor? index = some anchor) :
    edits.count (.insertion index) + t.creditAfter (anchor + 1) index answer ≤
      s.credit (anchor + 1) index + s.repeats (anchor + 1) edits := by
  cases h with
  | pending hp =>
    rw [List.count_nil, Nat.zero_add]
    exact Nat.le_add_right_of_le creditAfter_le
  | reading _ h => exact h.count_insertion_le hs ha

/-- By induction on the answers before the last one, at each of which the credit goes over to what
comes after. -/
theorem Run.count_insertion_le {tokens : List Token}
    (h : s.Run (tokens.map .ok ++ [answer]) edits t) (hs : s.Inside)
    (ha : s.log.anchor? index = some anchor) (hgo : ∀ token ∈ tokens, token.kind ≠ .endOfSource) :
    edits.count (.insertion index) ≤
      s.credit (anchor + 1) index + s.repeats (anchor + 1) edits := by
  induction tokens generalizing s edits with
  | nil =>
    cases h with
    | cons call rest =>
      cases rest
      rw [List.append_nil]
      exact Nat.le_trans (Nat.le_add_right _ _) (call.count_insertion_le hs ha)
  | cons token tokens ih =>
    obtain ⟨hk, hgo⟩ := List.forall_mem_cons.mp hgo
    cases h with
    | @cons _ t _ _ _ edits more call rest =>
      have hnext := call.forward hs
      have hcall := call.count_insertion_le hs ha
      have hrest := ih rest hnext.inside ((hnext.anchor?_eq index).trans ha) hgo
      have hafter : t.creditAfter (anchor + 1) index (.ok token) = t.credit (anchor + 1) index :=
        if_neg hk
      rw [hnext.repeats_eq] at hrest
      rw [List.count_append, repeats_append]
      omega

/-- The inserted kinds that a call hands out. -/
def givenBy : Except StreamFailure Token → List TokenKind
  | .ok token => if token.origin = .inserted then [token.kind] else []
  | .error _ => []

/-- The inserted kinds that are still to be handed out. -/
def waiting (s : CorrectedStream) : List TokenKind :=
  if s.pendingOrigin = .inserted then s.pending else []

theorem waiting_of_nil (h : s.pending = []) : s.waiting = [] := by
  unfold waiting
  rw [h, ite_self]

theorem Forward.insertedKinds_eq (h : Forward s t) : t.log.insertedKinds = s.log.insertedKinds :=
  h.eq_of_reset EditLog.insertedKinds fun log => funext log.insertedKinds_resetConsumed

/-- An insertion that is applied is copied into the stream as a whole, and nothing else is. -/
theorem Applies.insertedKinds_eq (h : s.Applies r edits answer t) (hp : s.pending = [])
    (hs : s.Inside) : edits.flatMap s.log.insertedKinds = givenBy answer ++ t.waiting := by
  induction h with
  | @insertion s r edit index hd =>
    have hget := (EditLog.insertionDue?_some hd).1
    simp [EditLog.insertedKinds, hget, Insertion.tokens, givenBy, waiting, emit, Token.synthetic]
  | failure hd hn => exact (waiting_of_nil hp).symm
  | source hd hn => exact (waiting_of_nil hp).symm
  | replacement hd hn => rfl
  | @removal s t r kind scanner edit index edits answer hd hn hp' hm hr rest ih =>
    have hpast := forward_pastRemoval hs hn hm
    have hrest := ih hp hpast.inside
    rw [hpast.insertedKinds_eq] at hrest
    exact hrest
  | endless => exact (waiting_of_nil hp).symm

theorem Call.insertedKinds_eq (h : s.Call edits answer t) (hs : s.Inside) :
    s.waiting ++ edits.flatMap s.log.insertedKinds = givenBy answer ++ t.waiting := by
  cases h with
  | @pending kind others hp =>
    by_cases ho : s.pendingOrigin = .inserted
    · simp [waiting, givenBy, emit, Token.synthetic, ho, hp]
    · simp [waiting, givenBy, emit, Token.synthetic, ho]
  | reading hp h =>
    rw [waiting_of_nil hp, List.nil_append]
    exact h.insertedKinds_eq hp hs

/-- What a run inserts it has handed out, but for what is still waiting. -/
theorem Run.insertedKinds_eq {answers : List (Except StreamFailure Token)}
    (h : s.Run answers edits t) (hs : s.Inside) :
    s.waiting ++ edits.flatMap s.log.insertedKinds = answers.flatMap givenBy ++ t.waiting := by
  induction h with
  | nil => simp
  | @cons s t u answer answers edits more call rest ih =>
    have hnext := call.forward hs
    have hrest := ih hnext.inside
    rw [hnext.insertedKinds_eq] at hrest
    rw [List.flatMap_append, ← List.append_assoc, call.insertedKinds_eq hs, List.append_assoc,
      hrest, List.flatMap_cons, List.append_assoc]

/-- The calls up to the end of the stream apply edits, and an insertion is among them once at most,
where it is due before the end of the source or no replacement and no removal starts there. At the
end each of these that is applied can make it come once more. Its tokens are handed out as often as
it is applied. The source is short enough for the offset behind its last byte, and the one after
that, to have 32 bits. -/
theorem ofText_count_insertion_le {text : String} {log : EditLog} {n : Nat} {tokens : List Token}
    (hsize : (Bytes.ofText text).length + 1 < Nat.pow 2 32)
    (hcalls : (ofText text log).calls n = (tokens.map .ok ++ [answer], s))
    (hgo : ∀ token ∈ tokens, token.kind ≠ .endOfSource) (ha : log.anchor? index = some anchor) :
    (∃ edits, (ofText text log).Run (tokens.map .ok ++ [answer]) edits s) ∧
      (∀ edits, (ofText text log).Run (tokens.map .ok ++ [answer]) edits s →
        edits.count (.insertion index) ≤ 1 + (if anchor + 1 = (Bytes.ofText text).length then
          log.startingAt (anchor + 1) edits else 0) ∧
        (log.NoneEmptyAt (Bytes.ofText text).length → edits.count (.insertion index) ≤ 2) ∧
        edits.flatMap log.insertedKinds =
          (tokens.map Except.ok ++ [answer]).flatMap givenBy ++ s.waiting) ∧
      ∀ token, .ok token ∈ tokens.map Except.ok ++ [answer] → token.span.FitsWords := by
  have hinside : (ofText text log).Inside := Nat.zero_le _
  refine ⟨(calls_eq_iff.mp hcalls).2, fun edits hrun => ?_,
    fitsWords_of_calls (Nat.lt_of_succ_lt hsize) hcalls⟩
  have hcount := hrun.count_insertion_le hinside ha hgo
  have hcredit : (ofText text log).credit (anchor + 1) index ≤ 1 := credit_le_one _
  have honce : edits.count (.insertion index) ≤ 1 +
      (if anchor + 1 = (Bytes.ofText text).length then log.startingAt (anchor + 1) edits else 0) :=
    Nat.le_trans hcount (Nat.add_le_add_right hcredit _)
  refine ⟨honce, fun hlog => ?_, hrun.insertedKinds_eq hinside⟩
  have hmet := (hrun.ascends hinside hlog).1.startingAt_le_one (anchor + 1)
  have hrepeats : (if anchor + 1 = (Bytes.ofText text).length then
      log.startingAt (anchor + 1) edits else 0) ≤ 1 := by
    split
    · exact hmet
    · exact Nat.zero_le 1
  omega

/-- An insertion after the last byte, and a removal that starts behind it. -/
def repeatedEdits : EditLog where
  insertions := [⟨.semicolon, [], 0, none, false⟩]
  removals := [⟨1, 1, false⟩]

/-- The tokens of `a` with the insertion before the removal and behind it. -/
def repeatedTokens : List Token :=
  [⟨.identifier, ⟨0, 1⟩, "a", .source⟩, ⟨.semicolon, ⟨1, 1⟩, "", .inserted⟩,
    ⟨.semicolon, ⟨1, 1⟩, "", .inserted⟩, ⟨.endOfSource, ⟨1, 1⟩, "", .source⟩]

theorem ofText_tokens_repeatedEdits :
    ((ofText "a" repeatedEdits).tokens).1 = .ok repeatedTokens := by
  cbv

theorem drains_repeatedEdits : ∃ tokens answer edits s,
    (ofText "a" repeatedEdits).Drains tokens answer edits s ∧
      tokens.map Except.ok ++ [answer] = repeatedTokens.map Except.ok := by
  have hlog : repeatedEdits.NoneEmptyAt (Bytes.ofText "a").length := by
    rw [show (Bytes.ofText "a").length = 1 by decide +kernel]
    unfold EditLog.NoneEmptyAt
    decide
  have hinside : (ofText "a" repeatedEdits).Inside := Nat.zero_le _
  obtain ⟨tokens, answer, edits, s, hdrains, hcollect⟩ := collect_drains hinside rfl hlog
  have hall := (congrArg Prod.fst hcollect).symm.trans ofText_tokens_repeatedEdits
  refine ⟨tokens, answer, edits, s, hdrains, ?_⟩
  cases answer with
  | error failure => cases hall
  | ok last => simpa using congrArg (List.map Except.ok) (Except.ok.inj hall)

theorem count_insertion_repeatedEdits : ∃ (n : Nat) (tokens : List Token)
    (answer : Except StreamFailure Token) (s : CorrectedStream),
    (Bytes.ofText "a").length + 1 < Nat.pow 2 32 ∧
      (ofText "a" repeatedEdits).calls n = (tokens.map .ok ++ [answer], s) ∧
      (∀ token ∈ tokens, token.kind ≠ .endOfSource) ∧ repeatedEdits.anchor? 0 = some 0 ∧
      (∃ edits, (ofText "a" repeatedEdits).Run (tokens.map .ok ++ [answer]) edits s) ∧
      (∀ edits, (ofText "a" repeatedEdits).Run (tokens.map .ok ++ [answer]) edits s →
        edits.count (.insertion 0) ≤ 1 + (if 0 + 1 = (Bytes.ofText "a").length then
          repeatedEdits.startingAt (0 + 1) edits else 0) ∧
        (repeatedEdits.NoneEmptyAt (Bytes.ofText "a").length → edits.count (.insertion 0) ≤ 2) ∧
        edits.flatMap repeatedEdits.insertedKinds =
          (tokens.map Except.ok ++ [answer]).flatMap givenBy ++ s.waiting) ∧
      ∀ token, .ok token ∈ tokens.map Except.ok ++ [answer] → token.span.FitsWords := by
  obtain ⟨tokens, answer, edits, s, hdrains, -⟩ := drains_repeatedEdits
  have hsize : (Bytes.ofText "a").length + 1 < Nat.pow 2 32 := by decide +kernel
  have hcalls := calls_eq_iff.mpr ⟨rfl, edits, hdrains.run⟩
  exact ⟨_, tokens, answer, s, hsize, hcalls, hdrains.goesOn, rfl,
    ofText_count_insertion_le hsize hcalls hdrains.goesOn rfl⟩

theorem flatMap_insertedKinds_repeatedEdits (edits : List Application) :
    edits.flatMap repeatedEdits.insertedKinds =
      List.replicate (edits.count (.insertion 0)) .semicolon := by
  induction edits with
  | nil => rfl
  | cons edit edits ih =>
    rw [List.flatMap_cons, ih]
    cases edit with
    | insertion index =>
      cases index with
      | zero => rw [List.count_cons_self]; rfl
      | succ index => rw [List.count_cons_of_ne (by simp)]; rfl
    | replacement => rw [List.count_cons_of_ne (by simp)]; rfl
    | removal => rw [List.count_cons_of_ne (by simp)]; rfl

/-- At the end of the source an insertion can come more than once. -/
theorem twice_repeatedEdits :
    repeatedEdits.Fresh ∧ ((ofText "a" repeatedEdits).tokens).1 = .ok repeatedTokens ∧
      ∃ tokens answer edits s, (ofText "a" repeatedEdits).Drains tokens answer edits s ∧
        1 < edits.count (.insertion 0) := by
  obtain ⟨tokens, answer, edits, s, hdrains, hanswers⟩ := drains_repeatedEdits
  refine ⟨rfl, ofText_tokens_repeatedEdits, tokens, answer, edits, s, hdrains, ?_⟩
  have hkinds : edits.flatMap repeatedEdits.insertedKinds =
      (tokens.map Except.ok ++ [answer]).flatMap givenBy ++ s.waiting :=
    hdrains.run.insertedKinds_eq (Nat.zero_le _)
  rw [hanswers, flatMap_insertedKinds_repeatedEdits] at hkinds
  have hlength := congrArg List.length hkinds
  rw [List.length_replicate, List.length_append] at hlength
  have hgiven : ((repeatedTokens.map Except.ok).flatMap givenBy).length = 2 := rfl
  omega

end CorrectedStream
end SyntaxRecovery
