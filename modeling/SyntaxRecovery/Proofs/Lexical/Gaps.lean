import Mathlib.Data.List.Infix
import SyntaxRecovery.Proofs.Lexical.Extent

/-! The blanks and comments that the scanner passes over between two tokens. -/
namespace SyntaxRecovery

namespace Bytes
variable {p : UInt8 → Bool} {body after : Bytes}

theorem run_append (hbody : ∀ b ∈ body, p b = true)
    (hafter : ∀ b, after.head? = some b → p b = false) : run p (body ++ after) = body.length := by
  have hstop : after.takeWhile p = [] := by
    cases after with
    | nil => rfl
    | cons b after => exact List.takeWhile_cons_of_neg (by simp [hafter b rfl])
  rw [run, List.takeWhile_append_of_pos hbody, hstop, List.append_nil]

/-- What stands behind a run does not go on with it. -/
theorem run_split (p : UInt8 → Bool) (bytes : Bytes) :
    ∃ body after, bytes = body ++ after ∧ run p bytes = body.length ∧
      (∀ b ∈ body, p b = true) ∧ ∀ b, after.head? = some b → p b = false := by
  refine ⟨bytes.takeWhile p, bytes.dropWhile p, List.takeWhile_append_dropWhile.symm, rfl,
    List.all_eq_true.mp List.all_takeWhile, fun b hb => ?_⟩
  have hnot := List.head?_dropWhile_not p bytes
  rw [hb] at hnot
  simpa using hnot

end Bytes

namespace Trivia
open Byte

def lineMark : Bytes := [of '/', of '/']

def openMark : Bytes := [of '/', of '*']

def closeMark : Bytes := [of '*', of '/']

/-- Blanks and comments in front of `after`. -/
inductive Gap (after : Bytes) : Bytes → Prop
  | nil : Gap after []
  | blank {b : UInt8} {gap : Bytes} (hb : isBlank b = true) (rest : Gap after gap) :
    Gap after (b :: gap)
  /-- A line comment ends before a line feed or at the end of the source. -/
  | lineComment {body gap : Bytes} (hbody : of '\n' ∉ body)
    (hstop : ∀ b, (gap ++ after).head? = some b → b = of '\n') (rest : Gap after gap) :
    Gap after (lineMark ++ body ++ gap)
  /-- No closing mark comes before the one that ends a block comment. -/
  | blockComment {body gap : Bytes} (hbody : ¬ closeMark <:+: body ++ [of '*'])
    (rest : Gap after gap) : Gap after (openMark ++ body ++ closeMark ++ gap)

/-- Neither a blank nor a comment stands in front. -/
def Clear (bytes : Bytes) : Prop := (∀ b, bytes.head? = some b → isBlank b = false) ∧
  ¬ lineMark <+: bytes ∧ ¬ openMark <+: bytes

theorem not_closeMark_infix_cons {a : UInt8} {body : Bytes} :
    ¬ closeMark <:+: a :: body ++ [of '*'] ↔
      ¬ (a = of '*' ∧ body.head? = some (of '/')) ∧ ¬ closeMark <:+: body ++ [of '*'] := by
  rw [List.cons_append, List.infix_cons_iff, not_or]
  refine and_congr_left fun _ => not_congr ?_
  have hmarks : of '/' ≠ of '*' := by decide
  cases body with
  | nil => simp [closeMark, List.cons_prefix_cons, hmarks]
  | cons c body => simp [closeMark, List.cons_prefix_cons, eq_comm]

theorem blockLength?_sound {length n : Nat} {bytes : Bytes}
    (h : blockLength? length bytes = some n) :
    ∃ body after, bytes = body ++ closeMark ++ after ∧ n = length + body.length + 2 ∧
      ¬ closeMark <:+: body ++ [of '*'] := by
  fun_induction blockLength? length bytes with
  | case1 length a b rest hc =>
    cases h
    obtain ⟨rfl, rfl⟩ := hc
    refine ⟨[], rest, rfl, rfl, ?_⟩
    decide
  | case2 length a b rest hc ih =>
    obtain ⟨body, after, heq, rfl, hbody⟩ := ih h
    refine ⟨a :: body, after, by simp [heq], by simp only [List.length_cons]; omega,
      not_closeMark_infix_cons.mpr ⟨?_, hbody⟩⟩
    rintro ⟨ha, hhead⟩
    refine hc ⟨ha, ?_⟩
    cases body with
    | nil => cases hhead
    | cons c body =>
      cases hhead
      exact (List.cons.inj heq).1
  | case3 => cases h

theorem blockLength?_complete {body : Bytes} (hbody : ¬ closeMark <:+: body ++ [of '*'])
    (length : Nat) (after : Bytes) :
    blockLength? length (body ++ closeMark ++ after) = some (length + body.length + 2) := by
  induction body generalizing length with
  | nil => rfl
  | cons a body ih =>
    obtain ⟨hfirst, hbody⟩ := not_closeMark_infix_cons.mp hbody
    obtain ⟨b, rest, hrest, hb⟩ : ∃ b rest, body ++ closeMark ++ after = b :: rest ∧
        ¬ (a = of '*' ∧ b = of '/') := by
      cases body with
      | nil =>
        refine ⟨of '*', of '/' :: after, rfl, fun h => ?_⟩
        exact absurd h.2 (by decide)
      | cons c body => exact ⟨c, body ++ closeMark ++ after, rfl, by simpa using hfirst⟩
    rw [List.cons_append, List.cons_append, hrest, blockLength?, if_neg hb, ← hrest, ih hbody,
      List.length_cons]
    congr 1
    omega

theorem skip_blank {b : UInt8} (hb : isBlank b = true) (length : Nat) (rest : Bytes) :
    skip length (b :: rest) = skip (length + 1) rest := by
  cases rest with
  | nil => simp [skip, hb]
  | cons c rest => rw [skip, if_pos hb]

theorem skip_lineMark (length : Nat) (rest : Bytes) : skip length (lineMark ++ rest) =
    skip (length + 2 + Bytes.run (· != of '\n') rest)
      (rest.drop (Bytes.run (· != of '\n') rest)) := by
  rw [lineMark, List.cons_append, List.cons_append, List.nil_append, skip, if_neg (by decide),
    if_pos ⟨rfl, rfl⟩]

theorem skip_openMark {rest : Bytes} {comment : Nat} (h : blockLength? 0 rest = some comment)
    (length : Nat) : skip length (openMark ++ rest) =
      skip (length + 2 + comment) (rest.drop comment) := by
  rw [openMark, List.cons_append, List.cons_append, List.nil_append, skip, if_neg (by decide),
    if_neg (by decide), if_pos ⟨rfl, rfl⟩, h]

theorem clear_nil : Clear [] := by simp [Clear, lineMark, openMark]

theorem clear_cons {b : UInt8} (hblank : isBlank b = false) (hslash : b ≠ of '/') (rest : Bytes) :
    Clear (b :: rest) := by
  simp [Clear, lineMark, openMark, hblank, hslash.symm]

theorem skip_clear {bytes : Bytes} (h : Clear bytes) (length : Nat) :
    skip length bytes = .ok length := by
  obtain ⟨hblank, hline, hopen⟩ := h
  rcases bytes with _ | ⟨a, _ | ⟨b, rest⟩⟩
  · rw [skip]
  · simp [skip, hblank a rfl]
  · rw [skip, if_neg (by simp [hblank a rfl]), if_neg, if_neg]
    · rintro ⟨rfl, rfl⟩
      exact hopen ⟨rest, rfl⟩
    · rintro ⟨rfl, rfl⟩
      exact hline ⟨rest, rfl⟩

/-- What is skipped is blanks and comments, and all of them. -/
theorem skip_sound {length n : Nat} {bytes : Bytes} (h : skip length bytes = .ok n) :
    ∃ gap after, bytes = gap ++ after ∧ n = length + gap.length ∧ Gap after gap ∧ Clear after := by
  fun_induction skip length bytes with
  | case1 =>
    cases h
    exact ⟨[], [], rfl, rfl, .nil, clear_nil⟩
  | case2 length b =>
    cases h
    by_cases hb : isBlank b = true
    · exact ⟨[b], [], rfl, by simp [hb], .blank hb .nil, clear_nil⟩
    · refine ⟨[], [b], rfl, by simp [hb], .nil, by simpa using hb, ?_⟩
      simp [lineMark, openMark, List.cons_prefix_cons]
  | case3 length a b rest ha ih =>
    obtain ⟨gap, after, heq, rfl, hgap, hclear⟩ := ih h
    refine ⟨a :: gap, after, by simp [heq], by simp only [List.length_cons]; omega,
      .blank ha hgap, hclear⟩
  | case4 length a b rest ha hs comment ih =>
    obtain ⟨gap, after, heq, rfl, hgap, hclear⟩ := ih h
    obtain ⟨rfl, rfl⟩ := hs
    obtain ⟨body, behind, rfl, hrun, hbody, hstop⟩ := Bytes.run_split (· != of '\n') rest
    have hcomment : comment = body.length := hrun
    rw [hcomment, List.drop_left] at heq
    refine ⟨lineMark ++ body ++ gap, after, by simp [lineMark, heq], ?_,
      .lineComment (fun hmem => by simpa using hbody _ hmem) ?_ hgap, hclear⟩
    · simp only [hcomment, lineMark, List.length_append, List.length_cons, List.length_nil]
      omega
    · rw [← heq]
      exact fun b hb => by simpa using hstop b hb
  | case5 => cases h
  | case6 length a b rest ha hs ho comment hb ih =>
    obtain ⟨gap, after, heq, rfl, hgap, hclear⟩ := ih h
    obtain ⟨rfl, rfl⟩ := ho
    obtain ⟨body, behind, rfl, rfl, hbody⟩ := blockLength?_sound hb
    rw [Nat.zero_add, show body.length + 2 = (body ++ closeMark).length by simp [closeMark],
      List.drop_left] at heq
    refine ⟨openMark ++ body ++ closeMark ++ gap, after, by simp [openMark, heq], ?_,
      .blockComment hbody hgap, hclear⟩
    simp only [openMark, closeMark, List.length_append, List.length_cons, List.length_nil]
    omega
  | case7 length a b rest ha hs ho =>
    cases h
    refine ⟨[], _, rfl, rfl, .nil, by simpa using ha, ?_, ?_⟩
    · simpa [lineMark, List.cons_prefix_cons, eq_comm] using hs
    · simpa [openMark, List.cons_prefix_cons, eq_comm] using ho

/-- Blanks and comments are skipped to their end. -/
theorem Gap.skip_append {after gap : Bytes} (h : Gap after gap) (length : Nat) :
    skip length (gap ++ after) = skip (length + gap.length) after := by
  induction h generalizing length with
  | nil => rfl
  | @blank b gap hb _ ih =>
    rw [List.cons_append, skip_blank hb, ih, List.length_cons]
    congr 1
    omega
  | @lineComment body gap hbody hstop _ ih =>
    have hrun : Bytes.run (· != of '\n') (body ++ (gap ++ after)) = body.length :=
      Bytes.run_append (fun b hb => bne_iff_ne.mpr (ne_of_mem_of_not_mem hb hbody))
        (fun b hb => by simp [hstop b hb])
    rw [List.append_assoc, List.append_assoc, skip_lineMark, hrun, List.drop_left, ih]
    congr 1
    simp only [lineMark, List.length_append, List.length_cons, List.length_nil]
    omega
  | @blockComment body gap hbody _ ih =>
    have hblock := blockLength?_complete hbody 0 (gap ++ after)
    have hdrop : (body ++ closeMark ++ (gap ++ after)).drop (0 + body.length + 2) =
        gap ++ after := by
      rw [Nat.zero_add, show body.length + 2 = (body ++ closeMark).length by simp [closeMark],
        List.drop_left]
    rw [show openMark ++ body ++ closeMark ++ gap ++ after =
      openMark ++ (body ++ closeMark ++ (gap ++ after)) by simp, skip_openMark hblock, hdrop, ih]
    congr 1
    simp only [openMark, closeMark, List.length_append, List.length_cons, List.length_nil]
    omega

end Trivia
end SyntaxRecovery
