import Mathlib.Data.List.Basic
import Mathlib.Data.List.Pairwise
import SyntaxRecovery.Proofs.Stream.Calls

/-! The edits of a log worked into the tokens of a source, token by token and without a scan. The
edits replace and remove runs of whole tokens. -/
namespace SyntaxRecovery

/-- The whole token lies in the stretch, given by its first and its last byte. -/
def Token.Within (token : Token) (stretch : Nat × Nat) : Prop :=
  stretch.1 ≤ token.span.start ∧ token.span.stop ≤ stretch.2 + 1

instance (token : Token) (stretch : Nat × Nat) : Decidable (token.Within stretch) :=
  inferInstanceAs (Decidable (_ ∧ _))

/-- Two stretches share no byte. -/
def Apart (a b : Nat × Nat) : Prop := a.2 < b.1 ∨ b.2 < a.1

theorem Apart.symm {a b : Nat × Nat} (h : Apart a b) : Apart b a := Or.symm h

instance : Std.Symm Apart := ⟨fun _ _ => Apart.symm⟩

namespace EditLog

/-- The tokens of the insertions due at `offset`, in recording order. -/
def insertedAt (log : EditLog) (offset : Nat) : List Token :=
  (log.insertions.filter (·.anchor + 1 = offset)).flatMap fun edit =>
    edit.tokens.map (Token.synthetic · (.emptyAt offset) .inserted)

/-- The tokens inserted after a token that lies in a stretch: none but after its last one. -/
def insertedAfter (log : EditLog) (token : Token) (last : Nat) : List Token :=
  if token.span.stop = last + 1 then log.insertedAt token.span.stop else []

/-- What stands in the corrected stream for a token of the source. The tokens of a replacement stand
for the first token of its run. -/
def merged (log : EditLog) (token : Token) : List Token :=
  match log.replacements.find? fun edit => token.Within (edit.start, edit.last) with
  | some edit =>
    (if token.span.start = edit.start then
      edit.tokens.map (Token.synthetic · (.emptyAt edit.start) .replaced) else []) ++
      log.insertedAfter token edit.last
  | none =>
    match log.removals.find? fun edit => token.Within (edit.start, edit.last) with
    | some edit => log.insertedAfter token edit.last
    | none => token :: log.insertedAt token.span.stop

/-- The corrected tokens, where the source has `tokens` and then `last`, its end. -/
def merge (log : EditLog) (tokens : List Token) (last : Token) : List Token :=
  tokens.flatMap log.merged ++ [last]

/-- A token that is kept, or is the last of its run, ends at `offset`. -/
def Emits (log : EditLog) (tokens : List Token) (offset : Nat) : Prop :=
  ∃ token ∈ tokens, token.span.stop = offset ∧
    ∀ stretch ∈ log.stretches, token.Within stretch → stretch.2 + 1 = offset

instance (log : EditLog) (tokens : List Token) (offset : Nat) :
    Decidable (log.Emits tokens offset) :=
  inferInstanceAs (Decidable (∃ token ∈ tokens, _ ∧ ∀ _ ∈ _, _ → _))

/-- The log with every replacement and removal consumed, and those insertions that come after a kept
token or a run. -/
def afterMerge (log : EditLog) (tokens : List Token) : EditLog :=
  { log with
    insertions := log.insertions.map fun edit =>
      { edit with consumed := log.Emits tokens (edit.anchor + 1) }
    replacements := log.replacements.map ({ · with consumed := true })
    removals := log.removals.map ({ · with consumed := true }) }

/-- No edit has been consumed yet. -/
def Fresh (log : EditLog) : Prop := log.resetConsumed = log

/-- Each replacement and removal covers a run of whole tokens, and no two runs share a token. -/
structure CoversRuns (log : EditLog) (tokens : List Token) : Prop where
  run : ∀ stretch ∈ log.stretches, ∃ (i j : Nat) (first final : Token), i ≤ j ∧
    tokens[i]? = some first ∧ tokens[j]? = some final ∧
    first.span.start = stretch.1 ∧ final.span.stop = stretch.2 + 1
  disjoint : log.stretches.Pairwise Apart

/-- No edit makes up an end of the source. -/
def SparesEnd (log : EditLog) : Prop :=
  (∀ edit ∈ log.insertions, .endOfSource ∉ edit.tokens) ∧
    ∀ edit ∈ log.replacements, .endOfSource ∉ edit.tokens

end EditLog

/-- Tokens that hold at least one byte each and follow each other. -/
structure InOrder (tokens : List Token) : Prop where
  start_lt : ∀ token ∈ tokens, token.span.start < token.span.stop
  follow : tokens.Pairwise fun a b => a.span.stop ≤ b.span.start

/-- Where a list is pairwise apart, so are its members at different indices. -/
theorem apart_of_ne {α : Type} {f : α → Nat × Nat} {l : List α}
    (h : l.Pairwise fun a b => Apart (f a) (f b)) {i j : Nat} {a b : α} (ha : l[i]? = some a)
    (hb : l[j]? = some b) (hij : i ≠ j) : Apart (f a) (f b) := by
  obtain ⟨hi, rfl⟩ := List.getElem?_eq_some_iff.mp ha
  obtain ⟨hj, rfl⟩ := List.getElem?_eq_some_iff.mp hb
  rcases Nat.lt_or_gt_of_ne hij with hlt | hlt
  · exact List.pairwise_iff_getElem.mp h i j hi hj hlt
  · exact (List.pairwise_iff_getElem.mp h j i hj hi hlt).symm

/-- A token lies in no two stretches that are apart. -/
theorem Token.Within.not_apart {token : Token} {a b : Nat × Nat} (ha : token.Within a)
    (hb : token.Within b) (ht : token.span.start < token.span.stop) : ¬ Apart a b := by
  obtain ⟨h1, h2⟩ := ha
  obtain ⟨h3, h4⟩ := hb
  rintro (h | h) <;> omega

namespace EditLog
variable {log : EditLog} {tokens : List Token}

namespace CoversRuns

/-- Every run has a first and a last token. -/
theorem ends (h : log.CoversRuns tokens) (ho : InOrder tokens) {stretch : Nat × Nat}
    (hs : stretch ∈ log.stretches) : ∃ first ∈ tokens, ∃ final ∈ tokens,
      first.span.start = stretch.1 ∧ final.span.stop = stretch.2 + 1 ∧
        first.span.stop ≤ final.span.stop := by
  obtain ⟨i, j, first, final, hij, hi, hj, hstart, hstop⟩ := h.run stretch hs
  have hfirst := List.mem_of_getElem? hi
  refine ⟨first, hfirst, final, List.mem_of_getElem? hj, hstart, hstop, ?_⟩
  rcases Nat.lt_or_eq_of_le hij with hlt | rfl
  · obtain ⟨hil, rfl⟩ := List.getElem?_eq_some_iff.mp hi
    obtain ⟨hjl, rfl⟩ := List.getElem?_eq_some_iff.mp hj
    have := List.pairwise_iff_getElem.mp ho.follow i j hil hjl hlt
    have := ho.start_lt _ (List.getElem_mem hjl)
    omega
  · exact Nat.le_of_eq (congrArg (·.span.stop) (Option.some.inj (hi.symm.trans hj)))

theorem holdsBytes (h : log.CoversRuns tokens) (ho : InOrder tokens) : log.HoldsBytes := by
  intro stretch hs
  obtain ⟨first, hfirst, final, -, hstart, hstop, hle⟩ := h.ends ho hs
  have := ho.start_lt first hfirst
  omega

theorem replacements_apart (h : log.CoversRuns tokens) :
    log.replacements.Pairwise fun a b => Apart (a.start, a.last) (b.start, b.last) :=
  List.pairwise_map.mp (List.pairwise_append.mp h.disjoint).1

theorem removals_apart (h : log.CoversRuns tokens) :
    log.removals.Pairwise fun a b => Apart (a.start, a.last) (b.start, b.last) :=
  List.pairwise_map.mp (List.pairwise_append.mp h.disjoint).2.1

theorem replacement_apart_removal (h : log.CoversRuns tokens) {a : Replacement} {b : Removal}
    (ha : a ∈ log.replacements) (hb : b ∈ log.removals) :
    Apart (a.start, a.last) (b.start, b.last) :=
  (List.pairwise_append.mp h.disjoint).2.2 _ (List.mem_map_of_mem ha) _ (List.mem_map_of_mem hb)

/-- A token lies in one run at most. -/
theorem eq_of_within (h : log.CoversRuns tokens) {token : Token}
    (ht : token.span.start < token.span.stop) {a b : Nat × Nat} (ha : a ∈ log.stretches)
    (hb : b ∈ log.stretches) (hta : token.Within a) (htb : token.Within b) : a = b := by
  by_contra hne
  exact hta.not_apart htb ht (h.disjoint.forall ha hb hne)

end CoversRuns

theorem find?_replacement_eq_none {token : Token}
    (h : ∀ stretch ∈ log.stretches, ¬ token.Within stretch) :
    (log.replacements.find? fun edit => token.Within (edit.start, edit.last)) = none := by
  simpa using fun edit he => h _ (mem_stretches_of_replacement he)

theorem merged_of_kept {token : Token} (h : ∀ stretch ∈ log.stretches, ¬ token.Within stretch) :
    log.merged token = token :: log.insertedAt token.span.stop := by
  have hd : (log.removals.find? fun edit => token.Within (edit.start, edit.last)) = none := by
    simpa using fun edit he => h _ (mem_stretches_of_removal he)
  unfold merged
  rw [find?_replacement_eq_none h, hd]

theorem merged_of_replacement (h : log.CoversRuns tokens) {edit : Replacement}
    (he : edit ∈ log.replacements) {token : Token} (ht : token.span.start < token.span.stop)
    (hw : token.Within (edit.start, edit.last)) :
    log.merged token = (if token.span.start = edit.start then
      edit.tokens.map (Token.synthetic · (.emptyAt edit.start) .replaced) else []) ++
        log.insertedAfter token edit.last := by
  cases hf : log.replacements.find? fun edit => token.Within (edit.start, edit.last) with
  | none => exact absurd hw (by simpa using List.find?_eq_none.mp hf edit he)
  | some other =>
    have hother : token.Within (other.start, other.last) := by simpa using List.find?_some hf
    obtain ⟨i, hi⟩ := List.mem_iff_getElem?.mp he
    obtain ⟨j, hj⟩ := List.mem_iff_getElem?.mp (List.mem_of_find?_eq_some hf)
    obtain rfl : i = j := by
      by_contra hij
      exact hw.not_apart hother ht (apart_of_ne h.replacements_apart hi hj hij)
    obtain rfl := Option.some.inj (hi.symm.trans hj)
    unfold merged
    rw [hf]

theorem merged_of_removal (h : log.CoversRuns tokens) {edit : Removal}
    (he : edit ∈ log.removals) {token : Token} (ht : token.span.start < token.span.stop)
    (hw : token.Within (edit.start, edit.last)) :
    log.merged token = log.insertedAfter token edit.last := by
  have hr : (log.replacements.find? fun edit => token.Within (edit.start, edit.last)) = none := by
    simpa using fun other ho hwo =>
      Token.Within.not_apart hwo hw ht (h.replacement_apart_removal ho he)
  cases hf : log.removals.find? fun edit => token.Within (edit.start, edit.last) with
  | none => exact absurd hw (by simpa using List.find?_eq_none.mp hf edit he)
  | some other =>
    have hother : token.Within (other.start, other.last) := by simpa using List.find?_some hf
    have hm := mem_stretches_of_removal (List.mem_of_find?_eq_some hf)
    have heq := h.eq_of_within ht (mem_stretches_of_removal he) hm hw hother
    unfold merged
    rw [hr, hf, (Prod.mk.inj heq).2]

/-- Of a run only the first token brings the tokens `front` that stand for it, and only the last one
those inserted after it. -/
theorem flatMap_run {front : List Token} {start last : Nat} {before : List Token} {final : Token}
    (ho : InOrder (before ++ [final])) (hstart : ∀ token ∈ (before ++ [final]).head?,
      token.span.start = start) (hstop : final.span.stop = last + 1) :
    (before ++ [final]).flatMap (fun token =>
      (if token.span.start = start then front else []) ++ log.insertedAfter token last) =
        front ++ log.insertedAt (last + 1) := by
  obtain ⟨hlt, hfollow⟩ := ho
  have hfinal := hlt final (by simp)
  cases before with
  | nil =>
    have h : final.span.start = start := hstart final rfl
    simp [h, insertedAfter, hstop]
  | cons first before =>
    have h : first.span.start = start := hstart first rfl
    rw [List.cons_append, List.pairwise_cons, List.pairwise_append] at hfollow
    obtain ⟨hfirst, -, -, hbefore⟩ := hfollow
    have hfirst' := hlt first (by simp)
    have hmid : before.flatMap (fun token =>
        (if token.span.start = start then front else []) ++ log.insertedAfter token last) = [] := by
      rw [List.flatMap_eq_nil_iff]
      intro token ht
      have h1 := hfirst token (by simp [ht])
      have h2 := hbefore token ht final (by simp)
      rw [if_neg (by omega), insertedAfter, if_neg (by omega)]
      rfl
    have h1 := hfirst final (by simp)
    rw [List.cons_append, List.flatMap_cons, List.flatMap_append, hmid, List.flatMap_singleton,
      if_pos h, if_neg (by omega : ¬ final.span.start = start), insertedAfter,
      if_neg (by omega), insertedAfter, if_pos hstop, hstop]
    simp

end EditLog

end SyntaxRecovery
