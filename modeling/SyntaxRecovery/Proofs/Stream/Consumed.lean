import SyntaxRecovery.Proofs.Stream.Merge

/-! The log while a corrected stream goes through it: what has been consumed when the scan has come
to an offset, and how that changes from one offset to the next. -/
namespace SyntaxRecovery

namespace EditLog
variable {log : EditLog} {tokens : List Token} {p q k index : Nat}

/-- The log at the offset `p`, where the insertions below index `k` have been applied already. -/
def consumedTo (log : EditLog) (tokens : List Token) (p k : Nat) : EditLog :=
  { log with
    insertions := log.insertions.mapIdx fun i edit =>
      { edit with consumed := log.Emits tokens (edit.anchor + 1) ∧
          (edit.anchor + 1 < p ∨ edit.anchor + 1 = p ∧ i < k) }
    replacements := log.replacements.map fun edit => { edit with consumed := edit.start < p }
    removals := log.removals.map fun edit => { edit with consumed := edit.start < p } }

/-- None of the insertions from index `k` on is due at `p`. -/
def DoneAt (log : EditLog) (p k : Nat) : Prop :=
  ∀ i edit, log.insertions[i]? = some edit → k ≤ i → edit.anchor + 1 ≠ p

/-- The tokens of the insertions from index `k` on that are due at `p`. -/
def insertedFrom (log : EditLog) (k p : Nat) : List Token :=
  insertedAt { log with insertions := log.insertions.drop k } p

theorem insertedFrom_zero (log : EditLog) (p : Nat) : log.insertedFrom 0 p = log.insertedAt p := rfl

theorem insertedFrom_of_done (h : log.DoneAt p k) : log.insertedFrom k p = [] := by
  unfold insertedFrom insertedAt
  rw [List.filter_eq_nil_iff.mpr]
  · rfl
  · intro edit he
    obtain ⟨i, hi⟩ := List.mem_iff_getElem?.mp he
    rw [List.getElem?_drop] at hi
    simpa using h _ edit hi (Nat.le_add_right k i)

theorem insertedFrom_of_first {edit : Insertion} (hk : k ≤ index)
    (he : log.insertions[index]? = some edit) (hp : edit.anchor + 1 = p)
    (hfirst : ∀ i other, i < index → log.insertions[i]? = some other → k ≤ i →
      other.anchor + 1 ≠ p) :
    log.insertedFrom k p = edit.tokens.map (Token.synthetic · (.emptyAt p) .inserted) ++
      log.insertedFrom (index + 1) p := by
  induction hd : index - k generalizing k with
  | zero =>
    obtain rfl : k = index := by omega
    obtain ⟨hl, rfl⟩ := List.getElem?_eq_some_iff.mp he
    unfold insertedFrom insertedAt
    rw [List.drop_eq_getElem_cons hl, List.filter_cons_of_pos (by simpa using hp)]
    rfl
  | succ d ih =>
    have hlt : k < index := by omega
    obtain ⟨hl, -⟩ := List.getElem?_eq_some_iff.mp he
    have hkl : k < log.insertions.length := Nat.lt_trans hlt hl
    have hne := hfirst k _ hlt (List.getElem?_eq_getElem hkl) (Nat.le_refl k)
    rw [← ih hlt (fun i other hi ho hki => hfirst i other hi ho (by omega)) (by omega)]
    unfold insertedFrom insertedAt
    rw [List.drop_eq_getElem_cons hkl, List.filter_cons_of_neg (by simpa using hne)]

section Mark
variable {α : Type} (start : α → Nat) (mark : Bool → α → α) {l : List α}

/-- Marking one member is all that is to do on the way from `p` to `q`, when no other starts
there. -/
theorem map_mark_modify (hm : ∀ b a, mark true (mark b a) = mark true a) {a : α}
    (ha : l[index]? = some a) (hq : start a < q) (hpq : p ≤ q)
    (hothers : ∀ i b, l[i]? = some b → i ≠ index → p ≤ start b → q ≤ start b) :
    (l.map fun b => mark (start b < p) b).modify index (mark true) =
      l.map fun b => mark (start b < q) b := by
  apply List.ext_getElem?
  intro i
  simp only [List.getElem?_modify, List.getElem?_map]
  by_cases hi : index = i
  · subst hi
    simp [ha, hm, hq]
  · cases hb : l[i]? with
    | none => rfl
    | some b =>
      have := hothers i b hb (Ne.symm hi)
      have hiff : start b < p ↔ start b < q := by omega
      simp [hi, hiff]

theorem map_mark_congr (hpq : p ≤ q) (h : ∀ b ∈ l, p ≤ start b → q ≤ start b) :
    (l.map fun b => mark (start b < p) b) = l.map fun b => mark (start b < q) b := by
  apply List.map_congr_left
  intro b hb
  have := h b hb
  have hiff : start b < p ↔ start b < q := by omega
  simp only [hiff]

end Mark

theorem getElem?_insertions_consumedTo (i : Nat) :
    (log.consumedTo tokens p k).insertions[i]? = log.insertions[i]?.map fun edit =>
      { edit with consumed := log.Emits tokens (edit.anchor + 1) ∧
          (edit.anchor + 1 < p ∨ edit.anchor + 1 = p ∧ i < k) } :=
  List.getElem?_mapIdx

/-- The next insertion due is that of the log itself. -/
theorem insertionDue?_consumedTo_some {edit : Insertion}
    (h : (log.consumedTo tokens p k).insertionDue? p k = some (edit, index)) :
    ∃ original, log.insertions[index]? = some original ∧ edit.tokens = original.tokens ∧
      original.anchor + 1 = p ∧ k ≤ index ∧
      ∀ i other, i < index → log.insertions[i]? = some other → k ≤ i → other.anchor + 1 ≠ p := by
  obtain ⟨hget, hanchor, hk⟩ := insertionDue?_some h
  rw [getElem?_insertions_consumedTo] at hget
  obtain ⟨original, ho, rfl⟩ := Option.map_eq_some_iff.mp hget
  refine ⟨original, ho, rfl, hanchor, hk, fun i other hi hother hki => ?_⟩
  have hget : (log.consumedTo tokens p k).insertions[i]? = _ := getElem?_insertions_consumedTo i
  rw [hother, Option.map_some] at hget
  have := insertionDue?_first h hi hget hki
  exact this

theorem doneAt_of_insertionDue?_consumedTo
    (h : (log.consumedTo tokens p k).insertionDue? p k = none) : log.DoneAt p k := by
  intro i edit he hk
  have hget : (log.consumedTo tokens p k).insertions[i]? = _ := getElem?_insertions_consumedTo i
  rw [he, Option.map_some] at hget
  have := insertionDue?_none h hget hk
  exact this

theorem consumeInsertion_consumedTo {edit : Insertion} (hp : log.Emits tokens p)
    (h : (log.consumedTo tokens p k).insertionDue? p k = some (edit, index)) :
    (log.consumedTo tokens p k).consumeInsertion index = log.consumedTo tokens p (index + 1) := by
  obtain ⟨original, ho, -, hanchor, hk, hfirst⟩ := insertionDue?_consumedTo_some h
  have hins : (log.consumedTo tokens p k).insertions.modify index ({ · with consumed := true }) =
      (log.consumedTo tokens p (index + 1)).insertions := by
    apply List.ext_getElem?
    intro i
    rw [List.getElem?_modify, getElem?_insertions_consumedTo, getElem?_insertions_consumedTo]
    by_cases hi : index = i
    · subst hi
      simp [ho, hanchor, hp]
    · cases hb : log.insertions[i]? with
      | none => rfl
      | some other =>
        have hiff : (other.anchor + 1 = p ∧ i < k) ↔ (other.anchor + 1 = p ∧ i < index + 1) := by
          refine and_congr_right fun hother => ⟨fun h => by omega, fun h => ?_⟩
          by_contra hik
          exact hfirst i other (by omega) hb (by omega) hother
        simp only [hi, if_false, hiff, Option.map_eq_map, Option.map_some]
  unfold consumeInsertion
  rw [hins]
  rfl

/-- Between two offsets of which the first is done, nothing is inserted where nothing is emitted. -/
theorem insertions_consumedTo (hpq : p < q) (hdone : log.DoneAt p k)
    (hemit : ∀ r, p < r → r < q → ¬ log.Emits tokens r) :
    (log.consumedTo tokens p k).insertions = (log.consumedTo tokens q 0).insertions := by
  apply List.ext_getElem?
  intro i
  rw [getElem?_insertions_consumedTo, getElem?_insertions_consumedTo]
  cases hb : log.insertions[i]? with
  | none => rfl
  | some edit =>
    have h1 := hdone i edit hb
    have h2 := hemit (edit.anchor + 1)
    have hiff : (log.Emits tokens (edit.anchor + 1) ∧
        (edit.anchor + 1 < p ∨ edit.anchor + 1 = p ∧ i < k)) ↔
        (log.Emits tokens (edit.anchor + 1) ∧
          (edit.anchor + 1 < q ∨ edit.anchor + 1 = q ∧ i < 0)) := by
      refine and_congr_right fun he => ?_
      have h2 : ¬ (p < edit.anchor + 1 ∧ edit.anchor + 1 < q) := fun h => h2 h.1 h.2 he
      omega
    simp only [Option.map_some, hiff]

theorem consumedTo_of_kept (hpq : p < q) (hdone : log.DoneAt p k)
    (hemit : ∀ r, p < r → r < q → ¬ log.Emits tokens r)
    (hs : ∀ stretch ∈ log.stretches, p ≤ stretch.1 → q ≤ stretch.1) :
    log.consumedTo tokens p k = log.consumedTo tokens q 0 := by
  have hrep := map_mark_congr Replacement.start (fun b edit => { edit with consumed := b })
    (Nat.le_of_lt hpq) fun edit he => hs _ (mem_stretches_of_replacement he)
  have hrem := map_mark_congr Removal.start (fun b edit => { edit with consumed := b })
    (Nat.le_of_lt hpq) fun edit he => hs _ (mem_stretches_of_removal he)
  exact EditLog.ext rfl (insertions_consumedTo hpq hdone hemit) hrep hrem

theorem consumeReplacement_consumedTo {edit : Replacement} (hpq : p < q) (hdone : log.DoneAt p k)
    (hemit : ∀ r, p < r → r < q → ¬ log.Emits tokens r) (he : log.replacements[index]? = some edit)
    (hq : edit.start < q)
    (hs : ∀ i other, log.replacements[i]? = some other → i ≠ index → p ≤ other.start →
      q ≤ other.start)
    (hm : ∀ other ∈ log.removals, p ≤ other.start → q ≤ other.start) :
    (log.consumedTo tokens p k).consumeReplacement index = log.consumedTo tokens q 0 := by
  have hrep := map_mark_modify Replacement.start (fun b edit => { edit with consumed := b })
    (fun _ _ => rfl) he hq (Nat.le_of_lt hpq) hs
  have hrem := map_mark_congr Removal.start (fun b edit => { edit with consumed := b })
    (Nat.le_of_lt hpq) hm
  exact EditLog.ext rfl (insertions_consumedTo hpq hdone hemit) hrep hrem

theorem consumeRemoval_consumedTo {edit : Removal} (hpq : p < q) (hdone : log.DoneAt p k)
    (hemit : ∀ r, p < r → r < q → ¬ log.Emits tokens r) (he : log.removals[index]? = some edit)
    (hq : edit.start < q)
    (hs : ∀ i other, log.removals[i]? = some other → i ≠ index → p ≤ other.start → q ≤ other.start)
    (hm : ∀ other ∈ log.replacements, p ≤ other.start → q ≤ other.start) :
    (log.consumedTo tokens p k).consumeRemoval index = log.consumedTo tokens q 0 := by
  have hrem := map_mark_modify Removal.start (fun b edit => { edit with consumed := b })
    (fun _ _ => rfl) he hq (Nat.le_of_lt hpq) hs
  have hrep := map_mark_congr Replacement.start (fun b edit => { edit with consumed := b })
    (Nat.le_of_lt hpq) hm
  exact EditLog.ext rfl (insertions_consumedTo hpq hdone hemit) hrep hrem

/-- At the start of the source nothing has been consumed. -/
theorem consumedTo_zero (hf : log.Fresh) : log.consumedTo tokens 0 0 = log := by
  have hins : (log.consumedTo tokens 0 0).insertions = log.resetConsumed.insertions := by
    apply List.ext_getElem?
    intro i
    rw [getElem?_insertions_consumedTo]
    simp [resetConsumed]
  calc log.consumedTo tokens 0 0 = log.resetConsumed :=
        EditLog.ext rfl hins (by simp [consumedTo, resetConsumed])
          (by simp [consumedTo, resetConsumed])
    _ = log := hf

/-- Behind the last token everything has been consumed that ever will be. -/
theorem consumedTo_end (ho : InOrder tokens) (hruns : log.CoversRuns tokens)
    (hp : ∀ token ∈ tokens, token.span.stop ≤ p) (hdone : log.DoneAt p k) :
    log.consumedTo tokens p k = log.afterMerge tokens := by
  have hstart : ∀ stretch ∈ log.stretches, stretch.1 < p := by
    intro stretch hs
    obtain ⟨first, hfirst, -, -, hstart, -, -⟩ := hruns.ends ho hs
    have := ho.start_lt first hfirst
    have := hp first hfirst
    omega
  refine EditLog.ext ?_ ?_ ?_ ?_
  · rfl
  · apply List.ext_getElem?
    intro i
    rw [getElem?_insertions_consumedTo]
    unfold afterMerge
    rw [List.getElem?_map]
    cases hb : log.insertions[i]? with
    | none => rfl
    | some edit =>
      have hiff : (log.Emits tokens (edit.anchor + 1) ∧
          (edit.anchor + 1 < p ∨ edit.anchor + 1 = p ∧ i < k)) ↔
          log.Emits tokens (edit.anchor + 1) := by
        refine and_iff_left_of_imp ?_
        rintro ⟨token, ht, hstop, -⟩
        have := hp token ht
        have := hdone i edit hb
        omega
      simp only [Option.map_some, hiff]
  · apply List.map_congr_left
    intro edit he
    simp [hstart _ (mem_stretches_of_replacement he)]
  · apply List.map_congr_left
    intro edit he
    simp [hstart _ (mem_stretches_of_removal he)]

end EditLog

end SyntaxRecovery
