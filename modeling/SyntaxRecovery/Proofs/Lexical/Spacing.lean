import SyntaxRecovery.Proofs.Lexical.Locality

/-! What stands between its tokens does not matter for what tokens a source has, once a blank stands
there. -/
namespace SyntaxRecovery

namespace Trivia
open Byte

/-- Blanks and comments that do not depend on what comes next: a line comment has its line feed. -/
inductive Filler : Bytes → Prop
  | nil : Filler []
  | blank {b : UInt8} {filler : Bytes} (hb : isBlank b = true) (rest : Filler filler) :
    Filler (b :: filler)
  | lineComment {body filler : Bytes} (hbody : of '\n' ∉ body) (rest : Filler filler) :
    Filler (lineMark ++ body ++ of '\n' :: filler)
  | blockComment {body filler : Bytes} (hbody : ¬ closeMark <:+: body ++ [of '*'])
    (rest : Filler filler) : Filler (openMark ++ body ++ closeMark ++ filler)

theorem Filler.gap {filler gap after : Bytes} (h : Filler filler) (hgap : Gap after gap) :
    Gap after (filler ++ gap) := by
  induction h with
  | nil => exact hgap
  | blank hb _ ih => exact .blank hb ih
  | @lineComment body filler hbody _ ih =>
    have hstop : ∀ b, ((of '\n' :: filler ++ gap) ++ after).head? = some b → b = of '\n' :=
      fun b hb => (Option.some.inj hb).symm
    have hline : Gap after (of '\n' :: filler ++ gap) := .blank (by decide) ih
    rw [List.append_assoc]
    exact .lineComment hbody hstop hline
  | blockComment hbody _ ih =>
    rw [List.append_assoc]
    exact .blockComment hbody ih

/-- A token stays clear of comments when a blank follows it. -/
theorem Clear.append {word after behind : Bytes} (h : Clear (word ++ after)) (hne : word ≠ [])
    (hbehind : Bytes.Parted behind) : Clear (word ++ behind) := by
  obtain ⟨hblank, hline, hopen⟩ := h
  have hmarks : ∀ b, isBlank b = true → b ≠ of '/' ∧ b ≠ of '*' := forall_isBlank (by decide)
  match word with
  | [] => exact absurd rfl hne
  | [a] =>
    have hsecond (mark : UInt8) (hmark : mark = of '/' ∨ mark = of '*') :
        ¬ [of '/', mark] <+: [a] ++ behind := by
      rcases behind with _ | ⟨b, behind⟩
      · simp [List.cons_prefix_cons]
      · rintro ⟨rest, hrest⟩
        obtain ⟨rfl, -⟩ := List.cons.inj (List.cons.inj hrest).2
        obtain ⟨hslash, hstar⟩ := hmarks mark (hbehind mark rfl)
        exact hmark.elim hslash hstar
    exact ⟨hblank, hsecond _ (.inl rfl), hsecond _ (.inr rfl)⟩
  | a :: b :: word =>
    refine ⟨hblank, ?_, ?_⟩
    · simpa [lineMark, List.cons_prefix_cons] using hline
    · simpa [openMark, List.cons_prefix_cons] using hopen

end Trivia

open Trivia

/-- A blank, and any other blanks and closed comments. -/
def Separator (bytes : Bytes) : Prop :=
  ∃ b filler, bytes = b :: filler ∧ Byte.isBlank b = true ∧ Filler filler

/-- The words one after the other, with a separator between any two of them. -/
inductive Joined : List Bytes → Bytes → Prop
  | nil : Joined [] []
  | single (word : Bytes) : Joined [word] word
  | cons {word separator rest : Bytes} {words : List Bytes} (hseparator : Separator separator)
    (hne : words ≠ []) (hrest : Joined words rest) :
    Joined (word :: words) (word ++ (separator ++ rest))

theorem Joined.uncons {word joined : Bytes} {words : List Bytes}
    (h : Joined (word :: words) joined) :
    ∃ filler rest, joined = word ++ (filler ++ rest) ∧ Filler filler ∧
      Bytes.Parted (filler ++ rest) ∧ Joined words rest := by
  cases h with
  | single => exact ⟨[], [], by simp, .nil, by simp [Bytes.Parted], .nil⟩
  | @cons _ separator rest _ hseparator _ hrest =>
    obtain ⟨b, filler, rfl, hb, hfiller⟩ := hseparator
    refine ⟨b :: filler, rest, rfl, .blank hb hfiller, fun c hc => ?_, hrest⟩
    obtain rfl := Option.some.inj hc
    exact hb

namespace Tiles
variable {i : Nat} {bytes filler : Bytes} {tokens : List Token}

theorem ne_nil (h : Tiles i bytes tokens) : tokens ≠ [] := by
  cases h <;> exact List.cons_ne_nil _ _

/-- Blanks and comments may be put in front of a gap. -/
theorem prepend (h : Tiles (i + filler.length) bytes tokens) (hfiller : Filler filler) :
    Tiles i (filler ++ bytes) tokens := by
  generalize hj : i + filler.length = j at h
  cases h with
  | @finish _ gap hgap =>
    subst hj
    rw [Nat.add_assoc, ← List.length_append]
    exact .finish (hfiller.gap hgap)
  | @step _ gap after kind text tokens hgap hclear hread rest =>
    subst hj
    rw [Nat.add_assoc i, ← List.length_append] at rest ⊢
    rw [← List.append_assoc]
    exact .step (hfiller.gap hgap) hclear hread rest

/-- The texts of the tokens, joined anew, make up a source of the same tokens. -/
theorem rejoin (h : Tiles i bytes tokens) (j : Nat) {joined : Bytes}
    (hjoined : Joined (tokens.map (Bytes.ofText ·.text)) joined ∨
      Joined (tokens.dropLast.map (Bytes.ofText ·.text)) joined) :
    ∃ tokens', Tiles j joined tokens' ∧
      tokens'.map (fun t => (t.kind, t.text)) = tokens.map (fun t => (t.kind, t.text)) := by
  induction h generalizing j joined with
  | finish =>
    obtain rfl : joined = [] := by
      rcases hjoined with hjoined | hjoined
      · cases hjoined with
        | single => rfl
        | cons _ hne _ => exact absurd rfl hne
      · cases hjoined
        rfl
    exact ⟨_, .finish .nil, rfl⟩
  | @step i gap after kind text tokens hgap hclear hread htiles ih =>
    -- Whether or not the last text is joined, nothing or a separator stands behind this one.
    obtain ⟨filler, rest, rfl, hfiller, hparted, hrest⟩ : ∃ filler rest,
        joined = Bytes.ofText text ++ (filler ++ rest) ∧ Filler filler ∧
          Bytes.Parted (filler ++ rest) ∧ (Joined (tokens.map (Bytes.ofText ·.text)) rest ∨
            Joined (tokens.dropLast.map (Bytes.ofText ·.text)) rest) := by
      rcases hjoined with hjoined | hjoined
      · obtain ⟨filler, rest, heq, hfiller, hparted, hrest⟩ := hjoined.uncons
        exact ⟨filler, rest, heq, hfiller, hparted, .inl hrest⟩
      · rw [List.dropLast_cons_of_ne_nil htiles.ne_nil] at hjoined
        obtain ⟨filler, rest, heq, hfiller, hparted, hrest⟩ := hjoined.uncons
        exact ⟨filler, rest, heq, hfiller, hparted, .inr hrest⟩
    obtain ⟨tokens', htiles', hpairs⟩ :=
      ih (j + (Bytes.ofText text).length + filler.length) hrest
    have hword : Clear (Bytes.ofText text ++ (filler ++ rest)) := hclear.append hread.ne_nil hparted
    refine ⟨⟨kind, ⟨j, j + (Bytes.ofText text).length⟩, text, .source⟩ :: tokens', ?_, ?_⟩
    · exact .step .nil hword (hread.append hparted) (htiles'.prepend hfiller)
    · rw [List.map_cons, List.map_cons, hpairs]

end Tiles

/-- A source joined from the texts of its tokens, with a blank and anything else that is passed over
between them, has the same tokens. The empty text at the end may be joined too, or not. -/
theorem lex_joined {text joined : String} {tokens : List Token} (h : lex text = .ok tokens)
    (hjoined : Joined (tokens.map (Bytes.ofText ·.text)) (Bytes.ofText joined) ∨
      Joined (tokens.dropLast.map (Bytes.ofText ·.text)) (Bytes.ofText joined)) :
    ∃ tokens', lex joined = .ok tokens' ∧
      tokens'.map (fun t => (t.kind, t.text)) = tokens.map (fun t => (t.kind, t.text)) := by
  obtain ⟨tokens', htiles, hpairs⟩ := (lex_eq_ok_iff.mp h).rejoin 0 hjoined
  exact ⟨tokens', lex_eq_ok_iff.mpr htiles, hpairs⟩

def dense : List Token :=
  [⟨.identifier, ⟨0, 1⟩, "a", .source⟩, ⟨.equal, ⟨6, 8⟩, "==", .source⟩,
    ⟨.longLiteral, ⟨8, 10⟩, "1l", .source⟩, ⟨.endOfSource, ⟨10, 10⟩, "", .source⟩]

theorem lex_joined_dense : lex "a/*c*/==1l" = .ok dense ∧
    Joined (dense.map (Bytes.ofText ·.text)) (Bytes.ofText "a /*/*/==\n//x\n1l\t") ∧
    ∃ tokens', lex "a /*/*/==\n//x\n1l\t" = .ok tokens' ∧
      tokens'.map (fun t => (t.kind, t.text)) = dense.map (fun t => (t.kind, t.text)) := by
  have hlex : lex "a/*c*/==1l" = .ok dense := by decide +kernel
  have hfirst : Separator (Bytes.ofText " /*/*/") :=
    ⟨32, Bytes.ofText "/*/*/", rfl, rfl, @Filler.blockComment [Byte.of '/'] [] (by decide) .nil⟩
  have hsecond : Separator (Bytes.ofText "\n//x\n") :=
    ⟨10, Bytes.ofText "//x\n", rfl, rfl, @Filler.lineComment [Byte.of 'x'] [] (by decide) .nil⟩
  have hthird : Separator (Bytes.ofText "\t") := ⟨9, [], rfl, rfl, .nil⟩
  have hjoined : Joined (dense.map (Bytes.ofText ·.text)) (Bytes.ofText "a /*/*/==\n//x\n1l\t") :=
    .cons hfirst (List.cons_ne_nil _ _) (.cons hsecond (List.cons_ne_nil _ _)
      (.cons hthird (List.cons_ne_nil _ _) (.single _)))
  exact ⟨hlex, hjoined, lex_joined hlex (.inl hjoined)⟩

end SyntaxRecovery
