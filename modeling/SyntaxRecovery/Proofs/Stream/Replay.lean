import SyntaxRecovery.Proofs.Stream.Consumed
import SyntaxRecovery.Proofs.Stream.Delivery
import SyntaxRecovery.Proofs.Stream.Integrity

/-! The corrected stream gives the merge of the source's tokens with the edits of its log. Between
two calls the stream is in step with the merge: it stands behind a token that is kept or ends a run,
and the tokens from there on are still to come. -/
namespace SyntaxRecovery

namespace EditLog

@[simp] theorem stretches_consumedTo (log : EditLog) (tokens : List Token) (p k : Nat) :
    (log.consumedTo tokens p k).stretches = log.stretches := by
  simp [consumedTo, stretches, Function.comp_def]

end EditLog

namespace CorrectedStream
variable {log : EditLog} {tokens before ts : List Token} {token final last : Token}
  {s t : CorrectedStream} {r : Bool} {stretch : Nat × Nat}

/-- The stream stands between two pieces of the source, with the tokens `ts` before it. -/
structure Synced (log : EditLog) (tokens : List Token) (last : Token) (ts : List Token)
    (s : CorrectedStream) : Prop where
  pending : s.pending = []
  floor : s.resumeFloor ≤ s.position
  inside : s.Inside
  scans : s.scanner.Scans ts last
  log_eq : s.log = log.consumedTo tokens s.position s.insertFrom
  split : ∃ done, tokens = done ++ ts ∧ ∀ token ∈ done, token.span.stop ≤ s.position
  clear : ∀ stretch ∈ log.stretches, stretch.2 + 1 ≤ s.position ∨ s.position ≤ stretch.1
  emits : s.position = 0 ∨ log.Emits tokens s.position

/-- The tokens `ts` begin with those of a run, of which `final` is the last. -/
structure Opens (stretch : Nat × Nat) (ts before : List Token) (final : Token)
    (after : List Token) : Prop where
  eq : ts = before ++ final :: after
  head : ∀ first ∈ (before ++ [final]).head?, first.span.start = stretch.1
  stop : final.span.stop = stretch.2 + 1
  within : ∀ inner ∈ before ++ [final], inner.Within stretch

theorem Opens.length_le {after : List Token}
    (hrun : Opens stretch (token :: ts) before final after) : after.length ≤ ts.length := by
  have := congrArg List.length hrun.eq
  simp only [List.length_cons, List.length_append] at this
  omega

namespace Synced

theorem editFloor_eq (h : Synced log tokens last ts s) : s.editFloor = s.position :=
  Nat.max_eq_left h.floor

theorem ordered (h : Synced log tokens last ts s) (ht : token ∈ ts) :
    s.position ≤ token.span.start ∧ token.span.start < token.span.stop ∧
      token.span.stop ≤ s.scanner.source.length :=
  (h.scans.ordered h.inside).1 token ht

theorem subset (h : Synced log tokens last ts s) (ht : token ∈ ts) : token ∈ tokens := by
  obtain ⟨done, rfl, -⟩ := h.split
  exact List.mem_append_right _ ht

/-- A token that ends behind the stream's place is still to come. -/
theorem mem_of_stop (h : Synced log tokens last ts s) (ht : token ∈ tokens)
    (hp : s.position < token.span.stop) : token ∈ ts := by
  obtain ⟨done, rfl, hdone⟩ := h.split
  rcases List.mem_append.mp ht with ht | ht
  · have := hdone token ht
    omega
  · exact ht

/-- A run that is not behind the stream begins with a token that is still to come. -/
theorem ends (h : Synced log tokens last ts s) (hruns : log.CoversRuns tokens)
    (ho : InOrder tokens) (hs : stretch ∈ log.stretches) (hp : s.position ≤ stretch.1) :
    ∃ first ∈ ts, ∃ final ∈ ts, first.span.start = stretch.1 ∧
      final.span.stop = stretch.2 + 1 ∧ first.span.stop ≤ final.span.stop := by
  obtain ⟨first, hfirst, final, hfinal, hstart, hstop, hle⟩ := hruns.ends ho hs
  have := ho.start_lt first hfirst
  exact ⟨first, h.mem_of_stop hfirst (by omega), final, h.mem_of_stop hfinal (by omega), hstart,
    hstop, hle⟩

theorem start_le (h : Synced log tokens last (token :: ts) s) (ht : final ∈ token :: ts) :
    token.span.start ≤ final.span.start := by
  rcases List.mem_cons.mp ht with rfl | ht
  · exact Nat.le_refl _
  · have hlt := (h.ordered List.mem_cons_self).2.1
    have hfollow := List.rel_of_pairwise_cons (h.scans.ordered h.inside).2 ht
    omega

theorem covers_of_within (h : Synced log tokens last (token :: ts) s)
    (hs : stretch ∈ log.stretches) (hw : token.Within stretch) :
    EditCovers s.editFloor token.span stretch.1 stretch.2 := by
  obtain ⟨h1, h2⟩ := hw
  refine ⟨?_, h1, h2⟩
  rw [h.editFloor_eq]
  have hord := h.ordered List.mem_cons_self
  rcases h.clear stretch hs with hp | hp <;> omega

/-- A token that lies in a run is the first one of it, and the whole run is still to come. -/
theorem run (h : Synced log tokens last (token :: ts) s) (hruns : log.CoversRuns tokens)
    (ho : InOrder tokens) (hs : stretch ∈ log.stretches)
    (hc : EditCovers s.editFloor token.span stretch.1 stretch.2) :
    ∃ before final after, Opens stretch (token :: ts) before final after := by
  obtain ⟨h1, h2, -⟩ := hc
  rw [h.editFloor_eq] at h1
  obtain ⟨first, hfirst, final, hfinal, hstart, hstop, -⟩ := h.ends hruns ho hs h1
  obtain ⟨before, after, heq⟩ := List.append_of_mem hfinal
  have hle := h.start_le hfirst
  have hhead : ∀ first ∈ (before ++ [final]).head?, first.span.start = stretch.1 := by
    intro first hf
    obtain rfl : first = token := by
      cases before with
      | nil => exact (Option.some.inj hf).symm.trans (List.cons.inj heq).1.symm
      | cons => exact (Option.some.inj hf).symm.trans (List.cons.inj heq).1.symm
    omega
  refine ⟨before, final, after, heq, hhead, hstop, fun inner hi => ?_⟩
  have hmem : inner ∈ token :: ts := by
    rw [heq]
    rcases List.mem_append.mp hi with hi | hi
    · exact List.mem_append_left _ hi
    · rw [List.mem_singleton.mp hi]
      simp
  have hlow := h.start_le hmem
  refine ⟨by omega, ?_⟩
  rcases List.mem_append.mp hi with hi | hi
  · have hpair := (h.scans.ordered h.inside).2
    rw [heq, List.pairwise_append] at hpair
    have := hpair.2.2 inner hi final List.mem_cons_self
    have := (h.ordered hfinal).2.1
    omega
  · rw [List.mem_singleton.mp hi]
    omega

/-- A run that is not behind the stream does not begin before the next token. -/
theorem start_le_stretch (h : Synced log tokens last (token :: ts) s)
    (hruns : log.CoversRuns tokens) (ho : InOrder tokens) (hs : stretch ∈ log.stretches)
    (hp : s.position ≤ stretch.1) : token.span.start ≤ stretch.1 := by
  obtain ⟨first, hfirst, -, -, hstart, -⟩ := h.ends hruns ho hs hp
  have := h.start_le hfirst
  omega

/-- What is apart from the run of the next token, and not behind the stream, comes after that
run. -/
theorem stop_le_of_apart (h : Synced log tokens last (token :: ts) s)
    (hruns : log.CoversRuns tokens) (ho : InOrder tokens)
    (hc : EditCovers s.editFloor token.span stretch.1 stretch.2) {other : Nat × Nat}
    (hs : other ∈ log.stretches) (ha : Apart stretch other) (hp : s.position ≤ other.1) :
    stretch.2 + 1 ≤ other.1 := by
  have hle := h.start_le_stretch hruns ho hs hp
  have hbytes := hruns.holdsBytes ho other hs
  have := hc.2.1
  rcases ha with ha | ha <;> omega

/-- No run begins inside a token that is kept. -/
theorem stop_le_stretch (h : Synced log tokens last (token :: ts) s)
    (hruns : log.CoversRuns tokens) (ho : InOrder tokens)
    (hkept : ∀ stretch ∈ log.stretches, ¬ token.Within stretch) (hs : stretch ∈ log.stretches)
    (hp : s.position ≤ stretch.1) : token.span.stop ≤ stretch.1 := by
  obtain ⟨first, hfirst, final, hfinal, hstart, hstop, hle⟩ := h.ends hruns ho hs hp
  rcases List.mem_cons.mp hfirst with rfl | hfirst
  · exact absurd ⟨by omega, by omega⟩ (hkept stretch hs)
  · have hfollow := List.rel_of_pairwise_cons (h.scans.ordered h.inside).2 hfirst
    omega

/-- Between the stream's place and the end of the next piece nothing is emitted. -/
theorem silent (before : List Token) (h : Synced log tokens last (before ++ final :: ts) s)
    (hb : ∀ inner ∈ before, ∃ stretch ∈ log.stretches, inner.Within stretch ∧
      stretch.2 + 1 = final.span.stop) (p : Nat) (hp : s.position < p)
    (hf : p < final.span.stop) : ¬ log.Emits tokens p := by
  rintro ⟨inner, hm, rfl, hlast⟩
  rcases List.mem_append.mp (h.mem_of_stop hm hp) with hi | hi
  · obtain ⟨stretch, hs, hw, hstop⟩ := hb inner hi
    have := hlast stretch hs hw
    omega
  · have hpair := (List.pairwise_append.mp (h.scans.ordered h.inside).2).2.1
    rcases List.mem_cons.mp hi with rfl | hi
    · omega
    · have hfollow := List.rel_of_pairwise_cons hpair hi
      have := (h.ordered (List.mem_append_right _ (List.mem_cons_of_mem _ hi))).2.1
      omega

/-- The stream is in step again behind the next piece of the source. -/
theorem move (before : List Token) (h : Synced log tokens last (before ++ final :: ts) s)
    (hsource : t.scanner.source = s.scanner.source) (hplace : t.position = final.span.stop)
    (hlast : ∀ stretch ∈ log.stretches, final.Within stretch → stretch.2 + 1 = final.span.stop)
    (hclear : ∀ stretch ∈ log.stretches,
      stretch.2 + 1 ≤ final.span.stop ∨ final.span.stop ≤ stretch.1)
    (hpending : t.pending = []) (hfloor : t.resumeFloor ≤ t.position)
    (hlog : t.log = log.consumedTo tokens t.position t.insertFrom) :
    Synced log tokens last ts t where
  pending := hpending
  floor := hfloor
  inside := by
    have := (h.ordered (List.mem_append_right before List.mem_cons_self)).2.2
    unfold Inside
    rw [hplace, hsource]
    exact this
  scans := h.scans.resume h.inside hsource hplace
  log_eq := hlog
  split := by
    obtain ⟨done, rfl, hdone⟩ := h.split
    refine ⟨done ++ before ++ [final], by simp, ?_⟩
    have hord := h.ordered (List.mem_append_right before List.mem_cons_self)
    have hpair := (List.pairwise_append.mp (h.scans.ordered h.inside).2).2.2
    rw [hplace]
    intro token ht
    simp only [List.append_assoc, List.mem_append, List.mem_singleton] at ht
    rcases ht with ht | ht | rfl
    · have := hdone token ht
      omega
    · have := hpair token ht final List.mem_cons_self
      omega
    · exact Nat.le_refl _
  clear := by
    rw [hplace]
    exact hclear
  emits := by
    rw [hplace]
    exact .inr ⟨final, h.subset (by simp), rfl, hlast⟩

/-- A run ends inside the source, so the scan goes on right behind it. -/
theorem position_past (h : Synced log tokens last ts s) {after : List Token}
    (hrun : Opens stretch ts before final after) (hsource : t.scanner.source = s.scanner.source) :
    (t.resumeAfter stretch.2).position = stretch.2 + 1 := by
  obtain ⟨rfl, -, hstop, -⟩ := hrun
  have hord := h.ordered (List.mem_append_right before List.mem_cons_self)
  rw [position_resumeAfter, hsource]
  omega

/-- The stream is in step again behind a run that an edit made it pass over. -/
theorem pass (h : Synced log tokens last ts s) (hruns : log.CoversRuns tokens) (ho : InOrder tokens)
    (hs : stretch ∈ log.stretches) {after : List Token} (hrun : Opens stretch ts before final after)
    (hsource : t.scanner.source = s.scanner.source)
    (hplace : t.position = stretch.2 + 1)
    (hpending : t.pending = []) (hfloor : t.resumeFloor = stretch.2 + 1)
    (hlog : t.log = log.consumedTo tokens (stretch.2 + 1) t.insertFrom) :
    Synced log tokens last after t := by
  obtain ⟨rfl, -, hstop, hwithin⟩ := hrun
  have hwf := hwithin final (by simp)
  have hord := h.ordered (List.mem_append_right before List.mem_cons_self)
  have hp : t.position = final.span.stop := hplace.trans hstop.symm
  refine h.move before hsource hp ?_ ?_ hpending (by omega) (by rw [hp, hstop]; exact hlog)
  · intro other hother hwo
    rw [hruns.eq_of_within hord.2.1 hother hs hwo hwf, hstop]
  · intro other hother
    by_cases heq : other = stretch
    · subst heq
      omega
    · have hbytes := hruns.holdsBytes ho other hother
      have hbytes' := hruns.holdsBytes ho stretch hs
      rcases hruns.disjoint.forall hother hs heq with ha | ha <;> omega

/-- Nothing is emitted inside the run of the next token. -/
theorem silent_run (h : Synced log tokens last ts s) (hs : stretch ∈ log.stretches)
    {after : List Token} (hrun : Opens stretch ts before final after) (p : Nat)
    (hp : s.position < p) (hlt : p < stretch.2 + 1) : ¬ log.Emits tokens p := by
  obtain ⟨rfl, -, hstop, hwithin⟩ := hrun
  refine h.silent before (fun inner hi => ⟨stretch, hs, ?_, hstop.symm⟩) p hp (hstop ▸ hlt)
  exact hwithin inner (List.mem_append_left _ hi)

theorem position_lt_of_run (h : Synced log tokens last ts s) {after : List Token}
    (hrun : Opens stretch ts before final after) : s.position < stretch.2 + 1 := by
  obtain ⟨rfl, -, hstop, -⟩ := hrun
  have hord := h.ordered (List.mem_append_right before List.mem_cons_self)
  omega

/-- What stands for a run: its own tokens, and those inserted after it. -/
theorem flatMap_merged (h : Synced log tokens last ts s) {after : List Token}
    (hrun : Opens stretch ts before final after) (front : List Token)
    (hm : ∀ inner : Token, inner.span.start < inner.span.stop → inner.Within stretch →
      log.merged inner = (if inner.span.start = stretch.1 then front else []) ++
        log.insertedAfter inner stretch.2) :
    ts.flatMap log.merged =
      front ++ (log.insertedAt (stretch.2 + 1) ++ after.flatMap log.merged) := by
  obtain ⟨rfl, hhead, hstop, hwithin⟩ := hrun
  have hsplit : before ++ final :: after = (before ++ [final]) ++ after := by simp
  rw [hsplit] at h ⊢
  have ho : InOrder (before ++ [final]) :=
    ⟨fun inner hi => (h.ordered (List.mem_append_left _ hi)).2.1,
      (List.pairwise_append.mp (h.scans.ordered h.inside).2).1⟩
  have hmerged :=
    List.flatMap_congr fun inner hi => hm inner (ho.start_lt inner hi) (hwithin inner hi)
  rw [List.flatMap_append, hmerged, EditLog.flatMap_run ho hhead hstop, List.append_assoc]

/-- Applying an insertion leaves the stream where it is. -/
theorem insertion (h : Synced log tokens last ts s) {edit : Insertion} {index : Nat}
    (hd : s.log.insertionDue? s.position s.insertFrom = some (edit, index))
    (hsource : t.scanner = s.scanner) (hpending : t.pending = [])
    (hfloor : t.resumeFloor = s.resumeFloor) (hlog : t.log = s.log.consumeInsertion index)
    (hfrom : t.insertFrom = index + 1) : Synced log tokens last ts t := by
  have hp : t.position = s.position := congrArg Scanner.position hsource
  have hemits : log.Emits tokens s.position := by
    rcases h.emits with h0 | he
    · obtain ⟨-, ha, -⟩ := EditLog.insertionDue?_some hd
      omega
    · exact he
  refine ⟨hpending, hp ▸ hfloor ▸ h.floor, ?_, hsource ▸ h.scans, ?_, hp ▸ h.split, hp ▸ h.clear,
    hp ▸ h.emits⟩
  · unfold Inside
    rw [hp, hsource]
    exact h.inside
  · rw [h.log_eq] at hd hlog
    rw [hlog, hp, hfrom]
    exact EditLog.consumeInsertion_consumedTo hemits hd

theorem holdsBytes (h : Synced log tokens last ts s) (hruns : log.CoversRuns tokens)
    (ho : InOrder tokens) : s.log.HoldsBytes := by
  have hlog := hruns.holdsBytes ho
  unfold EditLog.HoldsBytes at hlog ⊢
  rwa [h.log_eq, EditLog.stretches_consumedTo]

theorem doneAt (h : Synced log tokens last ts s) (hi : s.insertDue? r = none) :
    log.DoneAt s.position s.insertFrom := by
  have hd := Option.map_eq_none_iff.mp hi
  rw [h.log_eq] at hd
  exact EditLog.doneAt_of_insertionDue?_consumedTo hd

end Synced

/-- What is left of the merge at the offset `p`, where the insertions below index `k` are
through. -/
def remaining (log : EditLog) (last : Token) (ts : List Token) (p k : Nat) : List Token :=
  log.insertedFrom k p ++ (ts.flatMap log.merged ++ [last])

theorem remaining_of_done {p k : Nat} (h : log.DoneAt p k) :
    remaining log last ts p k = ts.flatMap log.merged ++ [last] := by
  rw [remaining, EditLog.insertedFrom_of_done h]
  rfl

theorem remaining_zero {p q : Nat} (h : p = q) :
    remaining log last ts p 0 = log.insertedAt q ++ (ts.flatMap log.merged ++ [last]) := by
  rw [h]
  rfl

/-- Wherever it is in step with the merge, the stream has the rest of the merge to give. -/
def Completes (log : EditLog) (tokens : List Token) (last : Token) (ts : List Token) : Prop :=
  ∀ (s : CorrectedStream) (r : Bool), Synced log tokens last ts s →
    s.AnswersWith r (remaining log last ts s.position s.insertFrom) (log.afterMerge tokens)

section Step
variable (hruns : log.CoversRuns tokens) (ho : InOrder tokens) (hend : log.SparesEnd)
include hruns ho

theorem Completes.delivers (hc : Completes log tokens last ts) (h : Synced log tokens last ts s) :
    s.Delivers (remaining log last ts s.position s.insertFrom) (log.afterMerge tokens) :=
  (hc s false h).delivers h.pending h.inside (h.holdsBytes hruns ho)

theorem answersWith_end (h : Synced log tokens last [] s) (hi : s.insertDue? r = none) :
    s.AnswersWith r [last] (log.afterMerge tokens) := by
  obtain ⟨scanner, hn, rfl⟩ : ∃ scanner, s.scanner.next = (.ok .endOfSource, scanner) ∧
      last = scanner.token .endOfSource := by
    cases h.scans with
    | finish hn => exact ⟨_, hn, rfl⟩
  have hbehind : ∀ stretch ∈ s.log.stretches,
      ¬ EditCovers s.editFloor (scanner.token .endOfSource).span stretch.1 stretch.2 := by
    intro stretch hs hc
    rw [h.log_eq, EditLog.stretches_consumedTo] at hs
    have h1 := hc.1
    rw [h.editFloor_eq] at h1
    obtain ⟨first, hfirst, -⟩ := h.ends hruns ho hs h1
    cases hfirst
  have hp := EditLog.replacementCovering?_eq_none_iff.mpr fun edit he =>
    hbehind _ (EditLog.mem_stretches_of_replacement he)
  have hm := EditLog.removalCovering?_eq_none_iff.mpr fun edit he =>
    hbehind _ (EditLog.mem_stretches_of_removal he)
  refine ⟨_, _, [], .source hi hn hp hm, rfl, .inl ⟨rfl, rfl, ?_⟩⟩
  obtain ⟨done, hdone, hstop⟩ := h.split
  rw [List.append_nil] at hdone
  refine h.log_eq.trans (EditLog.consumedTo_end ho hruns ?_ (h.doneAt hi))
  rw [hdone]
  exact hstop

theorem answersWith_kept (h : Synced log tokens last (token :: ts) s) {scanner : Scanner}
    (hi : s.insertDue? r = none) (hn : s.scanner.next = (.ok token.kind, scanner))
    (ht : token = scanner.token token.kind)
    (hp : s.log.replacementCovering? s.editFloor token.span = none)
    (hm : s.log.removalCovering? s.editFloor token.span = none)
    (hc : Completes log tokens last ts) :
    s.AnswersWith r ((token :: ts).flatMap log.merged ++ [last]) (log.afterMerge tokens) := by
  have hkept : ∀ stretch ∈ log.stretches, ¬ token.Within stretch := by
    intro stretch hs hw
    have hcovers := h.covers_of_within hs hw
    rw [← EditLog.stretches_consumedTo log tokens s.position s.insertFrom, ← h.log_eq] at hs
    rcases List.mem_append.mp hs with hs | hs
    · obtain ⟨edit, he, rfl⟩ := List.mem_map.mp hs
      exact EditLog.replacementCovering?_eq_none_iff.mp hp edit he hcovers
    · obtain ⟨edit, he, rfl⟩ := List.mem_map.mp hs
      exact EditLog.removalCovering?_eq_none_iff.mp hm edit he hcovers
  have hord := h.ordered List.mem_cons_self
  have hstop : scanner.position = token.span.stop := by rw [ht]; rfl
  have hahead : ∀ stretch ∈ log.stretches, s.position ≤ stretch.1 → token.span.stop ≤ stretch.1 :=
    fun stretch hs => h.stop_le_stretch hruns ho hkept hs
  let t : CorrectedStream := { s.readOn scanner with afterRemoval := r, last := some token }
  have hplace : t.position = token.span.stop := hstop
  have hsync : Synced log tokens last ts t := by
    refine Synced.move [] h (h.inside.steps hn).source_eq hplace
      (fun stretch hs hw => absurd hw (hkept stretch hs)) ?_ h.pending ?_ ?_
    · intro stretch hs
      have := hahead stretch hs
      rcases h.clear stretch hs with hp | hp <;> omega
    · have := h.floor
      rw [hplace]
      exact Nat.le_trans this (by omega)
    · rw [hplace]
      refine h.log_eq.trans (EditLog.consumedTo_of_kept (by omega) (h.doneAt hi) ?_ hahead)
      exact Synced.silent [] h (by simp)
  have hanswer : s.Answers r token t := by
    have := Answers.source (r := r) hi hn (by rwa [← ht]) (by rwa [← ht])
    rwa [← ht] at this
  refine ⟨token, t, _, hanswer, ?_, .inr ⟨h.scans.kind_ne List.mem_cons_self,
    hc.delivers hruns ho hsync⟩⟩
  rw [List.flatMap_cons, EditLog.merged_of_kept hkept, remaining, hplace]
  simp [t, readOn, EditLog.insertedFrom_zero]

theorem answersWith_removal (h : Synced log tokens last (token :: ts) s) {scanner : Scanner}
    {edit : Removal} {index : Nat} (hi : s.insertDue? r = none)
    (hn : s.scanner.next = (.ok token.kind, scanner)) (ht : token = scanner.token token.kind)
    (hp : s.log.replacementCovering? s.editFloor token.span = none)
    (hm : s.log.removalCovering? s.editFloor token.span = some (edit, index))
    (hc : ∀ after, after.length ≤ ts.length → Completes log tokens last after) :
    s.AnswersWith r ((token :: ts).flatMap log.merged ++ [last]) (log.afterMerge tokens) := by
  obtain ⟨-, hcovers⟩ := EditLog.removalCovering?_some hm
  have hget := EditLog.removalCovering?_getElem? hm
  rw [h.log_eq, EditLog.consumedTo, List.getElem?_map] at hget
  obtain ⟨original, ho', rfl⟩ := Option.map_eq_some_iff.mp hget
  have hmem := List.mem_of_getElem? ho'
  have hs := EditLog.mem_stretches_of_removal hmem
  have hr : original.start ≤ original.last := hruns.holdsBytes ho _ hs
  obtain ⟨before, final, after, hrun⟩ := h.run hruns ho hs hcovers
  have hlog : s.log.consumeRemoval index = log.consumedTo tokens (original.last + 1) 0 := by
    rw [h.log_eq]
    refine EditLog.consumeRemoval_consumedTo (h.position_lt_of_run hrun) (h.doneAt hi)
      (h.silent_run hs hrun) ho' (by omega) ?_ ?_
    · intro i other hother hne hpo
      exact h.stop_le_of_apart hruns ho hcovers
        (EditLog.mem_stretches_of_removal (List.mem_of_getElem? hother))
        (apart_of_ne hruns.removals_apart ho' hother (Ne.symm hne)) hpo
    · intro other hother hpo
      exact h.stop_le_of_apart hruns ho hcovers (EditLog.mem_stretches_of_replacement hother)
        (hruns.replacement_apart_removal hother hmem).symm hpo
  have hmerged := h.flatMap_merged hrun [] fun inner hlt hw => by
    rw [EditLog.merged_of_removal hruns hmem hlt hw]
    simp
  have hsource : scanner.source = s.scanner.source := (h.inside.steps hn).source_eq
  have hplace : (s.pastRemoval scanner original index).position = original.last + 1 :=
    h.position_past hrun hsource
  have hsync := h.pass (t := s.pastRemoval scanner _ index) hruns ho hs hrun hsource hplace
    h.pending rfl hlog
  have hrest := hc after hrun.length_le _ true hsync
  have hout : (token :: ts).flatMap log.merged ++ [last] = remaining log last after
      (s.pastRemoval scanner original index).position 0 := by
    rw [hmerged, remaining_zero hplace, List.nil_append, List.append_assoc]
  rw [hout]
  rw [ht] at hp hm
  exact .of_removal hi hn hp hm hr hrest

include hend

theorem answersWith_replacement (h : Synced log tokens last (token :: ts) s) {scanner : Scanner}
    {edit : Replacement} {index : Nat} (hi : s.insertDue? r = none)
    (hn : s.scanner.next = (.ok token.kind, scanner)) (ht : token = scanner.token token.kind)
    (hp : s.log.replacementCovering? s.editFloor token.span = some (edit, index))
    (hc : ∀ after, after.length ≤ ts.length → Completes log tokens last after) :
    s.AnswersWith r ((token :: ts).flatMap log.merged ++ [last]) (log.afterMerge tokens) := by
  obtain ⟨hget, hcovers⟩ := EditLog.replacementCovering?_some hp
  rw [h.log_eq, EditLog.consumedTo, List.getElem?_map] at hget
  obtain ⟨original, ho', rfl⟩ := Option.map_eq_some_iff.mp hget
  have hmem := List.mem_of_getElem? ho'
  have hs := EditLog.mem_stretches_of_replacement hmem
  have hr : original.start ≤ original.last := hruns.holdsBytes ho _ hs
  obtain ⟨before, final, after, hrun⟩ := h.run hruns ho hs hcovers
  have hlog : s.log.consumeReplacement index = log.consumedTo tokens (original.last + 1) 0 := by
    rw [h.log_eq]
    refine EditLog.consumeReplacement_consumedTo (h.position_lt_of_run hrun) (h.doneAt hi)
      (h.silent_run hs hrun) ho' (by omega) ?_ ?_
    · intro i other hother hne hpo
      exact h.stop_le_of_apart hruns ho hcovers
        (EditLog.mem_stretches_of_replacement (List.mem_of_getElem? hother))
        (apart_of_ne hruns.replacements_apart ho' hother (Ne.symm hne)) hpo
    · intro other hother hpo
      exact h.stop_le_of_apart hruns ho hcovers (EditLog.mem_stretches_of_removal hother)
        (hruns.replacement_apart_removal hmem hother) hpo
  let front := original.tokens.map (Token.synthetic · (.emptyAt original.start) .replaced)
  have hmerged := h.flatMap_merged hrun front fun inner hlt hw =>
    EditLog.merged_of_replacement hruns hmem hlt hw
  have hsource : scanner.source = s.scanner.source := (h.inside.steps hn).source_eq
  have hplace : ((s.readOn scanner).resumeAfter original.last).position = original.last + 1 :=
    h.position_past hrun hsource
  have hstart : scanner.tokenStart = original.start := by
    have h1 := h.start_le_stretch hruns ho hs (h.editFloor_eq ▸ hcovers.1)
    have h2 := hcovers.2.1
    rw [ht] at h1 h2
    exact Nat.le_antisymm h1 h2
  have hanswer := Answers.replacement (r := r) hi hn (by rwa [← ht])
  rw [hstart] at hanswer
  have hout : (token :: ts).flatMap log.merged ++ [last] = front ++ remaining log last after
      ((s.readOn scanner).resumeAfter original.last).position 0 := by
    rw [hmerged, remaining_zero hplace, List.append_assoc, List.append_assoc]
  rw [hout]
  refine .of_emit hanswer (hend.2 original hmem) fun last' => ?_
  exact (hc after hrun.length_le).delivers hruns ho
    (h.pass hruns ho hs hrun hsource hplace rfl rfl hlog)

/-- Reading on from a place where no insertion is due any more. -/
theorem answersWith_read (h : Synced log tokens last ts s) (hi : s.insertDue? r = none)
    (hc : ∀ after, after.length < ts.length → Completes log tokens last after) :
    s.AnswersWith r (ts.flatMap log.merged ++ [last]) (log.afterMerge tokens) := by
  cases ts with
  | nil => exact answersWith_end hruns ho h hi
  | cons token ts =>
    obtain ⟨scanner, hn, ht⟩ : ∃ scanner, s.scanner.next = (.ok token.kind, scanner) ∧
        token = scanner.token token.kind := by
      cases h.scans with
      | step hn => exact ⟨_, hn, rfl⟩
    have hc' : ∀ after, after.length ≤ ts.length → Completes log tokens last after :=
      fun after hlen => hc after (Nat.lt_succ_of_le hlen)
    cases hp : s.log.replacementCovering? s.editFloor token.span with
    | some edit => exact answersWith_replacement hruns ho hend h hi hn ht hp hc'
    | none =>
      cases hm : s.log.removalCovering? s.editFloor token.span with
      | some edit => exact answersWith_removal hruns ho h hi hn ht hp hm hc'
      | none => exact answersWith_kept hruns ho h hi hn ht hp hm (hc' ts (Nat.le_refl _))

/-- By induction on the tokens to come, and at one place on the insertions that are left there. -/
theorem completes (ts : List Token) : Completes log tokens last ts := by
  induction hn : ts.length using Nat.strongRecOn generalizing ts with
  | ind n ihTokens =>
    intro s r h
    induction hm : log.insertions.length - s.insertFrom using Nat.strongRecOn generalizing s r with
    | ind m ihInsertions =>
      cases hi : s.insertDue? r with
      | none =>
        rw [remaining_of_done (h.doneAt hi)]
        exact answersWith_read hruns ho hend h hi fun after hlt => ihTokens _ (hn ▸ hlt) after rfl
      | some answer =>
        obtain ⟨edit, index, hd, heq⟩ := insertDue?_some hi
        have hd' := hd
        rw [h.log_eq] at hd'
        obtain ⟨original, hget, htokens, ha, hk, hfirst⟩ :=
          EditLog.insertionDue?_consumedTo_some hd'
        obtain ⟨hlt, -⟩ := List.getElem?_eq_some_iff.mp hget
        have hout : remaining log last ts s.position s.insertFrom =
            edit.tokens.map (Token.synthetic · (.emptyAt s.position) .inserted) ++
              remaining log last ts s.position (index + 1) := by
          rw [remaining, EditLog.insertedFrom_of_first hk hget ha hfirst, htokens,
            List.append_assoc]
          rfl
        rw [hout]
        have hspares : .endOfSource ∉ edit.tokens := by
          rw [htokens]
          exact hend.1 original (List.mem_of_getElem? hget)
        refine .of_emit (.insertion (hi.trans (congrArg some heq))) hspares ?_
        intro last'
        have hsync := h.insertion (t := { s with
          log := s.log.consumeInsertion index, insertFrom := index + 1, afterRemoval := r,
          pending := [], pendingOrigin := .inserted, pendingOffset := s.position, last := last' })
          hd rfl rfl rfl rfl rfl
        have hrest :=
          ihInsertions (log.insertions.length - (index + 1)) (by omega) _ false hsync rfl
        exact hrest.delivers rfl h.inside (hsync.holdsBytes hruns ho)

end Step

/-- A source that can be scanned, with a fresh log that replaces and removes whole runs, gives the
merge of its tokens with the edits. Then every replacement and removal has been consumed, and of the
insertions those that the merge holds. The source has less than 4 GiB, and so the offsets of the
tokens have 32 bits. -/
theorem tokens_ofText_eq_merge {text : String} (hsize : (Bytes.ofText text).length < Nat.pow 2 32)
    (hlex : lex text = .ok (tokens ++ [last])) (hfresh : log.Fresh) (hruns : log.CoversRuns tokens)
    (hend : log.SparesEnd) :
    ∃ stream, (ofText text log).tokens = (.ok (log.merge tokens last), stream) ∧
      stream.log = log.afterMerge tokens ∧
      ∀ token ∈ log.merge tokens last, token.span.FitsWords := by
  obtain ⟨tokens', last', hscans, heq⟩ := Scanner.collect_eq_ok_iff.mp hlex
  obtain ⟨rfl, hlast⟩ := List.append_inj' heq rfl
  obtain rfl : last = last' := by simpa using hlast
  have hord := hscans.ordered (Nat.zero_le _)
  have ho : InOrder tokens := ⟨fun token ht => (hord.1 token ht).2.1, hord.2⟩
  have hsync : Synced log tokens last tokens (ofText text log) :=
    ⟨rfl, Nat.le_refl _, Nat.zero_le _, hscans, (EditLog.consumedTo_zero hfresh).symm,
      ⟨[], rfl, by simp⟩, fun stretch _ => .inr (Nat.zero_le _), .inl rfl⟩
  have hdone : log.DoneAt 0 0 := fun i edit _ _ => Nat.succ_ne_zero _
  obtain ⟨stream, hstream, hlog⟩ := ((completes hruns ho hend tokens).delivers hruns ho hsync) 1 []
  have hremaining : remaining log last tokens 0 0 = tokens.flatMap log.merged ++ [last] :=
    remaining_of_done hdone
  have htokens : (ofText text log).tokens = (.ok (log.merge tokens last), stream) := by
    refine hstream.trans ?_
    rw [EditLog.merge, ← hremaining]
    rfl
  refine ⟨stream, htokens, hlog, fun token ht => ?_⟩
  obtain ⟨n, handed, heq, hcalls⟩ := collect_eq_ok htokens
  rw [heq] at ht
  exact fitsWords_of_calls hsize hcalls token (List.mem_map_of_mem ht)

/-- A replaced run, next to it a removed one, and insertions inside and behind them. -/
def mixedEdits : EditLog where
  insertions := [⟨.comma, [.dot], 2, none, false⟩, ⟨.star, [], 0, none, false⟩,
    ⟨.identifier, [], 4, none, false⟩, ⟨.colon, [], 2, none, false⟩]
  replacements := [⟨.intKw, [.plus], 0, 2, false⟩]
  removals := [⟨4, 4, false⟩]

/-- The tokens of `a b c;`. -/
def mixedTokens : List Token :=
  [⟨.identifier, ⟨0, 1⟩, "a", .source⟩, ⟨.identifier, ⟨2, 3⟩, "b", .source⟩,
    ⟨.identifier, ⟨4, 5⟩, "c", .source⟩, ⟨.semicolon, ⟨5, 6⟩, ";", .source⟩]

theorem coversRuns_mixedEdits : mixedEdits.CoversRuns mixedTokens where
  run := by
    intro stretch hs
    obtain rfl | rfl : stretch = (0, 2) ∨ stretch = (4, 4) := by
      simpa [mixedEdits, EditLog.stretches] using hs
    · exact ⟨0, 1, _, _, by decide, rfl, rfl, rfl, rfl⟩
    · exact ⟨2, 2, _, _, by decide, rfl, rfl, rfl, rfl⟩
  disjoint := by simp [mixedEdits, EditLog.stretches, Apart]

theorem tokens_ofText_mixedEdits : (Bytes.ofText "a b c;").length < Nat.pow 2 32 ∧
    lex "a b c;" = .ok (mixedTokens ++ [⟨.endOfSource, ⟨6, 6⟩, "", .source⟩]) ∧
      mixedEdits.Fresh ∧ mixedEdits.CoversRuns mixedTokens ∧ mixedEdits.SparesEnd ∧
      ∃ stream, (ofText "a b c;" mixedEdits).tokens = (.ok
        [⟨.intKw, ⟨0, 0⟩, "", .replaced⟩, ⟨.plus, ⟨0, 0⟩, "", .replaced⟩,
          ⟨.comma, ⟨3, 3⟩, "", .inserted⟩, ⟨.dot, ⟨3, 3⟩, "", .inserted⟩,
          ⟨.colon, ⟨3, 3⟩, "", .inserted⟩, ⟨.identifier, ⟨5, 5⟩, "$missing$", .inserted⟩,
          ⟨.semicolon, ⟨5, 6⟩, ";", .source⟩, ⟨.endOfSource, ⟨6, 6⟩, "", .source⟩], stream) ∧
        stream.log.insertions.map (·.consumed) = [true, false, true, true] := by
  have hsize : (Bytes.ofText "a b c;").length < Nat.pow 2 32 := by decide +kernel
  have hlex : lex "a b c;" = .ok (mixedTokens ++ [⟨.endOfSource, ⟨6, 6⟩, "", .source⟩]) := by
    decide +kernel
  have hfresh : mixedEdits.Fresh := rfl
  have hend : mixedEdits.SparesEnd := by constructor <;> decide
  obtain ⟨stream, htokens, hlog, -⟩ :=
    tokens_ofText_eq_merge hsize hlex hfresh coversRuns_mixedEdits hend
  refine ⟨hsize, hlex, hfresh, coversRuns_mixedEdits, hend, stream, htokens, ?_⟩
  rw [hlog]
  decide

end CorrectedStream
end SyntaxRecovery
