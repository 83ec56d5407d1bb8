import SyntaxRecovery.CorrectedStream
import SyntaxRecovery.Proofs.Lexical.Boundaries

/-! What a call of the corrected stream can do, case by case, and that it brings the stream forward
where no edit at the end of the source is empty. -/
namespace SyntaxRecovery
attribute [ext] EditLog

namespace EditLog
variable {log : EditLog} {position lowest previous index : Nat} {span : Span}

theorem insertionDue?_some {edit : Insertion}
    (h : log.insertionDue? position lowest = some (edit, index)) :
    log.insertions[index]? = some edit ∧ edit.anchor + 1 = position ∧ lowest ≤ index := by
  have hm := List.mem_zipIdx_iff_getElem?.mp (List.mem_of_find?_eq_some h)
  have hp := List.find?_some h
  simp only [decide_eq_true_eq] at hp
  exact ⟨hm, hp⟩

/-- No insertion before the one found is due. -/
theorem insertionDue?_first {edit other : Insertion} {i : Nat}
    (h : log.insertionDue? position lowest = some (edit, index)) (hi : i < index)
    (ho : log.insertions[i]? = some other) (hl : lowest ≤ i) : other.anchor + 1 ≠ position := by
  obtain ⟨-, n, hn, hget, hbefore⟩ := List.find?_eq_some_iff_getElem.mp h
  obtain ⟨hil, rfl⟩ := List.getElem?_eq_some_iff.mp ho
  simp only [List.getElem_zipIdx, Nat.zero_add, Prod.mk.injEq] at hget
  have hp := hbefore i (hget.2 ▸ hi)
  simp only [List.getElem_zipIdx, Nat.zero_add, Bool.not_eq_true', decide_eq_false_iff_not,
    not_and] at hp
  exact fun ha => hp ha hl

theorem insertionDue?_none (h : log.insertionDue? position lowest = none) {edit : Insertion}
    (hi : log.insertions[index]? = some edit) (hl : lowest ≤ index) :
    edit.anchor + 1 ≠ position := by
  have hp := List.find?_eq_none.mp h (edit, index) (List.mem_zipIdx_iff_getElem?.mpr hi)
  simp only [decide_eq_true_eq, not_and] at hp
  exact fun ha => hp ha hl

theorem replacementCovering?_some {edit : Replacement}
    (h : log.replacementCovering? previous span = some (edit, index)) :
    log.replacements[index]? = some edit ∧ EditCovers previous span edit.start edit.last := by
  have hm := List.mem_zipIdx_iff_getElem?.mp (List.mem_of_find?_eq_some h)
  exact ⟨hm, by simpa using List.find?_some h⟩

theorem replacementCovering?_eq_none_iff : log.replacementCovering? previous span = none ↔
    ∀ edit ∈ log.replacements, ¬ EditCovers previous span edit.start edit.last := by
  simp only [replacementCovering?, List.find?_eq_none, Prod.forall, decide_eq_true_eq,
    List.mem_zipIdx_iff_getElem?]
  exact ⟨fun h edit he => (List.mem_iff_getElem?.mp he).elim (h edit),
    fun h edit i hi => h edit (List.mem_of_getElem? hi)⟩

theorem removalCovering?_getElem? {edit : Removal}
    (h : log.removalCovering? previous span = some (edit, index)) :
    log.removals[index]? = some edit :=
  List.mem_zipIdx_iff_getElem?.mp (List.mem_of_find?_eq_some h)

theorem removalCovering?_eq_none_iff : log.removalCovering? previous span = none ↔
    ∀ edit ∈ log.removals, ¬ EditCovers previous span edit.start edit.last := by
  simp only [removalCovering?, List.find?_eq_none, Prod.forall, decide_eq_true_eq,
    List.mem_zipIdx_iff_getElem?]
  exact ⟨fun h edit he => (List.mem_iff_getElem?.mp he).elim (h edit),
    fun h edit i hi => h edit (List.mem_of_getElem? hi)⟩

/-- The first and the last byte of each replaced and each removed stretch. -/
def stretches (log : EditLog) : List (Nat × Nat) :=
  log.replacements.map (fun edit => (edit.start, edit.last)) ++
    log.removals.map fun edit => (edit.start, edit.last)

theorem mem_stretches_of_replacement {edit : Replacement} (h : edit ∈ log.replacements) :
    (edit.start, edit.last) ∈ log.stretches :=
  List.mem_append_left _ (List.mem_map_of_mem h)

theorem mem_stretches_of_removal {edit : Removal} (h : edit ∈ log.removals) :
    (edit.start, edit.last) ∈ log.stretches :=
  List.mem_append_right _ (List.mem_map_of_mem h)

theorem map_modify_of_eq {α β : Type} (f : α → β) (g : α → α) (hg : ∀ a, f (g a) = f a)
    (l : List α) (index : Nat) : (l.modify index g).map f = l.map f := by
  apply List.ext_getElem?
  intro i
  simp only [List.getElem?_map, List.getElem?_modify]
  split <;> simp [hg, Function.comp_def]

@[simp] theorem stretches_consumeReplacement (log : EditLog) (index : Nat) :
    (log.consumeReplacement index).stretches = log.stretches :=
  congrArg (· ++ _) (map_modify_of_eq (fun edit : Replacement => (edit.start, edit.last))
    ({ · with consumed := true }) (fun _ => rfl) _ _)

@[simp] theorem stretches_consumeRemoval (log : EditLog) (index : Nat) :
    (log.consumeRemoval index).stretches = log.stretches :=
  congrArg (_ ++ ·) (map_modify_of_eq (fun edit : Removal => (edit.start, edit.last))
    ({ · with consumed := true }) (fun _ => rfl) _ _)

/-- No stretch is inverted, so each holds at least one byte. -/
def HoldsBytes (log : EditLog) : Prop := ∀ stretch ∈ log.stretches, stretch.1 ≤ stretch.2

/-- No stretch starts at `size` and ends before it. -/
def NoneEmptyAt (log : EditLog) (size : Nat) : Prop :=
  ∀ stretch ∈ log.stretches, ¬ (stretch.1 = size ∧ stretch.2 + 1 = size)

theorem HoldsBytes.noneEmptyAt (h : log.HoldsBytes) (size : Nat) : log.NoneEmptyAt size := by
  rintro stretch hs ⟨hstart, hlast⟩
  have := h stretch hs
  omega

theorem NoneEmptyAt.congr {other : EditLog} {size : Nat} (h : log.NoneEmptyAt size)
    (hs : other.stretches = log.stretches) : other.NoneEmptyAt size :=
  fun stretch hm => h stretch (hs ▸ hm)

end EditLog

namespace CorrectedStream

/-- The stream once `scanner` has read on. -/
def readOn (stream : CorrectedStream) (scanner : Scanner) : CorrectedStream :=
  { stream with scanner, insertFrom := 0 }

/-- The stream behind a replaced stretch. -/
def pastReplacement (stream : CorrectedStream) (scanner : Scanner) (edit : Replacement)
    (index : Nat) (afterRemoval : Bool) : CorrectedStream :=
  { (stream.readOn scanner).resumeAfter edit.last with
    log := stream.log.consumeReplacement index, afterRemoval }

/-- The stream behind a removed stretch. -/
def pastRemoval (stream : CorrectedStream) (scanner : Scanner) (edit : Removal) (index : Nat) :
    CorrectedStream :=
  { (stream.readOn scanner).resumeAfter edit.last with log := stream.log.consumeRemoval index }

/-- `s.Answers r token t`: with nothing pending the stream `s` hands out `token` and becomes `t`,
where `r` says whether a removed stretch lies before. -/
inductive Answers : CorrectedStream → Bool → Token → CorrectedStream → Prop
  | insertion {s t : CorrectedStream} {r : Bool} {token : Token}
    (hi : s.insertDue? r = some (token, t)) : Answers s r token t
  | source {s : CorrectedStream} {r : Bool} {kind : TokenKind} {scanner : Scanner}
    (hi : s.insertDue? r = none) (hs : s.scanner.next = (.ok kind, scanner))
    (hp : s.log.replacementCovering? s.editFloor (scanner.token kind).span = none)
    (hm : s.log.removalCovering? s.editFloor (scanner.token kind).span = none) :
    Answers s r (scanner.token kind)
      { s.readOn scanner with afterRemoval := r, last := some (scanner.token kind) }
  | replacement {s : CorrectedStream} {r : Bool} {kind : TokenKind} {scanner : Scanner}
    {edit : Replacement} {index : Nat}
    (hi : s.insertDue? r = none) (hs : s.scanner.next = (.ok kind, scanner))
    (hp : s.log.replacementCovering? s.editFloor (scanner.token kind).span = some (edit, index)) :
    Answers s r (emit (s.pastReplacement scanner edit index r) .replaced scanner.tokenStart
      edit.first edit.others).1
      (emit (s.pastReplacement scanner edit index r) .replaced scanner.tokenStart
        edit.first edit.others).2
  | removal {s t : CorrectedStream} {r : Bool} {kind : TokenKind} {scanner : Scanner}
    {edit : Removal} {index : Nat} {token : Token}
    (hi : s.insertDue? r = none) (hs : s.scanner.next = (.ok kind, scanner))
    (hp : s.log.replacementCovering? s.editFloor (scanner.token kind).span = none)
    (hm : s.log.removalCovering? s.editFloor (scanner.token kind).span = some (edit, index))
    (hr : edit.start ≤ edit.last)
    (rest : Answers (s.pastRemoval scanner edit index) true token t) : Answers s r token t
  | emptyRemoval {s t : CorrectedStream} {r : Bool} {kind : TokenKind} {scanner : Scanner}
    {edit : Removal} {index : Nat} {token : Token}
    (hi : s.insertDue? r = none) (hs : s.scanner.next = (.ok kind, scanner))
    (hp : s.log.replacementCovering? s.editFloor (scanner.token kind).span = none)
    (hm : s.log.removalCovering? s.editFloor (scanner.token kind).span = some (edit, index))
    (hr : ¬ edit.start ≤ edit.last)
    (rest : (s.pastRemoval scanner edit index).insertDue? true = some (token, t)) :
    Answers s r token t

theorem advance_eq_ok_iff {s t : CorrectedStream} {r : Bool} {token : Token} :
    s.advance r = (.ok token, t) ↔ s.Answers r token t := by
  constructor
  · intro h
    fun_induction advance s r with
    | case1 s r token' t' hi =>
      cases h
      exact .insertion hi
    | case2 => cases h
    | case3 s r hi kind scanner hs token' floor s' edit index hp token'' t' he =>
      cases h
      obtain ⟨rfl, rfl⟩ := Prod.mk.inj he
      exact .replacement hi hs hp
    | case4 s r hi kind scanner hs token' floor s' hp edit index hm s'' hr ih =>
      exact .removal hi hs hp hm hr (ih h)
    | case5 s r hi kind scanner hs token' floor s' hp edit index hm s'' hr token'' t' he =>
      cases h
      exact .emptyRemoval hi hs hp hm hr he
    | case6 => cases h
    | case7 s r hi kind scanner hs token' floor s' hp hm =>
      obtain ⟨ht, rfl⟩ := Prod.mk.inj h
      obtain rfl := Except.ok.inj ht
      exact .source hi hs hp hm
  · intro h
    induction h with
    | insertion hi => rw [advance, hi]
    | source hi hs hp hm =>
      rw [advance]
      simp only [hi, hs, hp]
      split
      · next h => cases hm.symm.trans h
      · rfl
    | replacement hi hs hp =>
      rw [advance]
      simp only [hi, hs, hp]
      rfl
    | removal hi hs hp hm hr rest ih =>
      rw [advance]
      simp only [hi, hs, hp]
      split
      · next h =>
        cases hm.symm.trans h
        rw [dif_pos hr]
        exact ih
      · next h => cases hm.symm.trans h
    | emptyRemoval hi hs hp hm hr rest =>
      rw [advance]
      simp only [hi, hs, hp]
      split
      · next h =>
        cases hm.symm.trans h
        rw [dif_neg hr]
        split
        · next h => cases rest.symm.trans h; rfl
        · next h => cases rest.symm.trans h
      · next h => cases hm.symm.trans h

theorem insertDue?_some {s t : CorrectedStream} {r : Bool} {token : Token}
    (h : s.insertDue? r = some (token, t)) : ∃ edit index,
      s.log.insertionDue? s.position s.insertFrom = some (edit, index) ∧
      (token, t) = emit { s with
        log := s.log.consumeInsertion index, insertFrom := index + 1, afterRemoval := r }
        .inserted s.position edit.first edit.others := by
  obtain ⟨⟨edit, index⟩, hd, he⟩ := Option.map_eq_some_iff.mp h
  exact ⟨edit, index, hd, he.symm⟩

/-- The scan stands inside the source. -/
def Inside (s : CorrectedStream) : Prop := s.position ≤ s.scanner.source.length

theorem Inside.steps {s : CorrectedStream} {kind : TokenKind} {scanner : Scanner} (hs : s.Inside)
    (h : s.scanner.next = (.ok kind, scanner)) : s.scanner.Steps scanner kind :=
  Scanner.next_steps h hs

theorem position_resumeAfter (s : CorrectedStream) (last : Nat) :
    (s.resumeAfter last).position = min (last + 1) s.scanner.source.length := rfl

theorem inside_pastRemoval (s : CorrectedStream) (scanner : Scanner) (edit : Removal)
    (index : Nat) : (s.pastRemoval scanner edit index).Inside :=
  Nat.min_le_right _ _

/-- Only at the end of the source can an empty edit hold what is read there. -/
theorem start_le_last {s : CorrectedStream} {kind : TokenKind} {scanner : Scanner}
    {start last : Nat} (hs : s.Inside) (h : s.scanner.next = (.ok kind, scanner))
    (hc : EditCovers s.editFloor (scanner.token kind).span start last)
    (hne : ¬ (start = s.scanner.source.length ∧ last + 1 = s.scanner.source.length)) :
    start ≤ last := by
  have hstep := hs.steps h
  have hle := hstep.start_le
  obtain ⟨-, h2, h3⟩ := hc
  simp only [Scanner.token] at h2 h3
  by_cases hk : kind = .endOfSource
  · subst hk
    obtain ⟨-, hstop⟩ := Scanner.next_endOfSource h hs
    omega
  · have := hstep.start_lt hk
    omega

theorem le_of_replacementCovering? {s : CorrectedStream} {kind : TokenKind} {scanner : Scanner}
    {edit : Replacement} {index : Nat} (hs : s.Inside)
    (hlog : s.log.NoneEmptyAt s.scanner.source.length) (hn : s.scanner.next = (.ok kind, scanner))
    (h : s.log.replacementCovering? s.editFloor (scanner.token kind).span = some (edit, index)) :
    edit.start ≤ edit.last := by
  obtain ⟨hget, hc⟩ := EditLog.replacementCovering?_some h
  have hmem := EditLog.mem_stretches_of_replacement (List.mem_of_getElem? hget)
  exact start_le_last hs hn hc (hlog _ hmem)

theorem le_of_removalCovering? {s : CorrectedStream} {kind : TokenKind} {scanner : Scanner}
    {edit : Removal}
    {index : Nat} (hs : s.Inside) (hlog : s.log.NoneEmptyAt s.scanner.source.length)
    (hn : s.scanner.next = (.ok kind, scanner))
    (h : s.log.removalCovering? s.editFloor (scanner.token kind).span = some (edit, index)) :
    edit.start ≤ edit.last := by
  obtain ⟨hmem, hc⟩ := EditLog.removalCovering?_some h
  exact start_le_last hs hn hc (hlog _ (EditLog.mem_stretches_of_removal hmem))

/-- An edit that holds the token just read brings the stream closer to the end of the source. -/
theorem ahead_resumeAfter_lt {s : CorrectedStream} {kind : TokenKind} {scanner : Scanner}
    {start last : Nat} (hs : s.Inside) (h : s.scanner.next = (.ok kind, scanner))
    (hc : EditCovers s.editFloor (scanner.token kind).span start last) (hr : start ≤ last) :
    ((s.readOn scanner).resumeAfter last).ahead s.scanner.source.length <
      s.ahead s.scanner.source.length := by
  have hstep := hs.steps h
  obtain ⟨h1, h2, h3⟩ := hc
  simp only [Scanner.token] at h2 h3
  have hp : s.position ≤ s.editFloor := Nat.le_max_left _ _
  have hsource : (s.readOn scanner).scanner.source = s.scanner.source := hstep.source_eq
  have := hstep.position_le_start
  have := hstep.start_le
  have := hstep.position_le_length
  unfold ahead
  rw [resumeAfter_editFloor, position_resumeAfter, hsource]
  simp only [position] at *
  omega

theorem Progress.of_ahead_lt {size : Nat} {s t u : CorrectedStream}
    (h : t.ahead size < s.ahead size) (ht : u.ahead size ≤ t.ahead size) : Progress size s u :=
  .inl (Nat.lt_of_le_of_lt ht h)

theorem Progress.ahead_le {size : Nat} {s t : CorrectedStream} (h : Progress size s t) :
    t.ahead size ≤ s.ahead size := by
  rcases h with h | ⟨h, -⟩
  · exact Nat.le_of_lt h
  · exact Nat.le_of_eq h

/-- What an answer leaves as it was. -/
structure Continues (s t : CorrectedStream) : Prop where
  source_eq : t.scanner.source = s.scanner.source
  inside : t.Inside
  stretches_eq : t.log.stretches = s.log.stretches

theorem insertDue?_continues {s t : CorrectedStream} {r : Bool} {token : Token} (hs : s.Inside)
    (h : s.insertDue? r = some (token, t)) : Continues s t := by
  obtain ⟨edit, index, -, he⟩ := insertDue?_some h
  cases he
  exact ⟨rfl, hs, rfl⟩

theorem Answers.continues {s t : CorrectedStream} {r : Bool} {token : Token}
    (h : s.Answers r token t) (hs : s.Inside) : Continues s t := by
  induction h with
  | insertion hi => exact insertDue?_continues hs hi
  | source hi h hp hm =>
    have hstep := hs.steps h
    refine ⟨hstep.source_eq, ?_, rfl⟩
    exact Nat.le_trans hstep.position_le_length (Nat.le_of_eq (congrArg _ hstep.source_eq.symm))
  | replacement hi h hp =>
    exact ⟨(hs.steps h).source_eq, Nat.min_le_right _ _, EditLog.stretches_consumeReplacement _ _⟩
  | removal hi h hp hm hr rest ih =>
    obtain ⟨h1, h2, h3⟩ := ih (inside_pastRemoval _ _ _ _)
    exact ⟨h1.trans (hs.steps h).source_eq, h2, h3.trans (EditLog.stretches_consumeRemoval _ _)⟩
  | emptyRemoval hi h hp hm hr rest =>
    obtain ⟨h1, h2, h3⟩ := insertDue?_continues (inside_pastRemoval _ _ _ _) rest
    exact ⟨h1.trans (hs.steps h).source_eq, h2, h3.trans (EditLog.stretches_consumeRemoval _ _)⟩

theorem Answers.progress {s t : CorrectedStream} {r : Bool} {token : Token}
    (h : s.Answers r token t) (hs : s.Inside) (hlog : s.log.NoneEmptyAt s.scanner.source.length)
    (hk : token.kind ≠ .endOfSource) : Progress s.scanner.source.length s t := by
  induction h with
  | @insertion s t r token hi =>
    obtain ⟨edit, index, hd, he⟩ := insertDue?_some hi
    obtain ⟨hm, -, hl⟩ := EditLog.insertionDue?_some hd
    obtain ⟨hlt, -⟩ := List.getElem?_eq_some_iff.mp hm
    cases he
    refine .inr ⟨rfl, .inl ?_⟩
    simp only [insertionsAhead, EditLog.consumeInsertion, List.length_modify]
    omega
  | @source s r kind scanner hi h hp hm =>
    have hstep := hs.steps h
    have hlt := hstep.start_lt hk
    have := hstep.position_le_start
    have := hstep.position_le_length
    refine .inl ?_
    simp only [ahead, editFloor, position, readOn] at *
    omega
  | @replacement s r kind scanner edit index hi h hp =>
    have hc := (EditLog.replacementCovering?_some hp).2
    exact .inl (ahead_resumeAfter_lt hs h hc (le_of_replacementCovering? hs hlog h hp))
  | @removal s t r kind scanner edit index token hi h hp hm hr rest ih =>
    obtain ⟨-, hc⟩ := EditLog.removalCovering?_some hm
    have hlt := ahead_resumeAfter_lt hs h hc hr
    have hsource : (s.pastRemoval scanner edit index).scanner.source = s.scanner.source :=
      (hs.steps h).source_eq
    have := ih (inside_pastRemoval _ _ _ _)
      (hsource ▸ hlog.congr (EditLog.stretches_consumeRemoval _ _)) hk
    rw [hsource] at this
    exact .of_ahead_lt hlt this.ahead_le
  | @emptyRemoval s t r kind scanner edit index token hi h hp hm hr rest =>
    exact absurd (le_of_removalCovering? hs hlog h hm) hr

theorem next_eq_ok {s t : CorrectedStream} {token : Token} (hp : s.pending = [])
    (h : s.Answers false token t) : s.next = (.ok token, t) := by
  unfold next
  rw [hp]
  exact advance_eq_ok_iff.mpr h

theorem collect_of_last {s t : CorrectedStream} {token : Token} (size returns : Nat)
    (found : List Token) (h : s.next = (.ok token, t)) (hk : token.kind = .endOfSource) :
    s.collect size returns found = (.ok (found.reverse ++ [token]), t) := by
  rw [collect, h]
  simp [hk]

theorem collect_of_progress {s t : CorrectedStream} {token : Token} {size : Nat} (returns : Nat)
    (found : List Token) (h : s.next = (.ok token, t)) (hk : token.kind ≠ .endOfSource)
    (hp : Progress size s t) :
    s.collect size returns found = t.collect size returns (token :: found) := by
  rw [collect, h]
  simp [hk, hp]

end CorrectedStream

end SyntaxRecovery
