import SyntaxRecovery.Proofs.Lexical.Tiling

/-! Nothing of a source is lost in its tokens but blanks and comments. -/
namespace SyntaxRecovery
open Trivia

/-- Where the last of the tokens stops; `start` where there is none. -/
def lastStop (start : Nat) (tokens : List Token) : Nat :=
  (tokens.getLast?.map (·.span.stop)).getD start

theorem lastStop_cons (start : Nat) (token : Token) (tokens : List Token) :
    lastStop start (token :: tokens) = lastStop token.span.stop tokens := by
  cases tokens with
  | nil => rfl
  | cons => rw [lastStop, lastStop, List.getLast?_cons_cons, List.getLast?_cons]; rfl

namespace Tiles
variable {i : Nat} {bytes source : Bytes} {tokens : List Token} {token : Token}

theorem bounds (h : Tiles i bytes tokens) (ht : token ∈ tokens) : i ≤ token.span.start ∧
    token.span.start ≤ token.span.stop ∧ token.span.stop ≤ i + bytes.length := by
  induction h with
  | finish =>
    cases List.mem_singleton.mp ht
    exact ⟨Nat.le_add_right _ _, Nat.le_refl _, Nat.le_refl _⟩
  | @step i gap after kind text tokens _ _ _ _ ih =>
    simp only [List.length_append]
    rcases List.mem_cons.mp ht with rfl | ht
    · dsimp only
      omega
    · have := ih ht
      omega

/-- Tokens follow each other in the source. -/
theorem ordered (h : Tiles i bytes tokens) :
    tokens.Pairwise (fun a b => a.span.stop ≤ b.span.start) := by
  induction h with
  | finish => exact List.pairwise_singleton _ _
  | step _ _ _ rest ih =>
    exact List.pairwise_cons.mpr ⟨fun token ht => (rest.bounds ht).1, ih⟩

/-- Only the last token is the end of the source, and only it holds no byte. -/
theorem split_last (h : Tiles i bytes tokens) : ∃ inner,
    tokens = inner ++ [⟨.endOfSource, .emptyAt (i + bytes.length), "", .source⟩] ∧
      ∀ token ∈ inner, token.kind ≠ .endOfSource ∧ token.span.start < token.span.stop := by
  induction h with
  | finish => exact ⟨[], rfl, by simp⟩
  | @step i gap after kind text tokens _ _ hread _ ih =>
    obtain ⟨inner, rfl, hinner⟩ := ih
    obtain ⟨first, rest, -, hread⟩ := hread
    refine ⟨⟨kind, ⟨i + gap.length, i + gap.length + (Bytes.ofText text).length⟩, text, .source⟩ ::
      inner, ?_, List.forall_mem_cons.mpr ⟨⟨?_, ?_⟩, hinner⟩⟩
    · simp only [List.length_append, Nat.add_assoc, List.cons_append]
    · exact (Lexeme.read_ends hread).1
    · exact Nat.lt_add_of_pos_right (Lexeme.read_pos hread)

/-- The text of a token is what the source holds in its place. -/
theorem text_eq (h : Tiles i bytes tokens) (hsource : source.drop i = bytes) (ht : token ∈ tokens) :
    Bytes.ofText token.text =
      (source.drop token.span.start).take (token.span.stop - token.span.start) := by
  induction h with
  | finish =>
    cases List.mem_singleton.mp ht
    simp [Bytes.ofText, Span.emptyAt]
  | @step i gap after kind text tokens _ _ _ _ ih =>
    have hword : source.drop (i + gap.length) = Bytes.ofText text ++ after := by
      rw [← List.drop_drop, hsource, List.drop_left]
    rcases List.mem_cons.mp ht with rfl | ht
    · dsimp only
      rw [hword, Nat.add_sub_cancel_left, List.take_left]
    · exact ih (by rw [← List.drop_drop, hword, List.drop_left]) ht

/-- In front of a token stand blanks and comments, and nothing else since the token before. -/
theorem gap {before after : List Token} (h : Tiles i bytes (before ++ token :: after))
    (hsource : source.drop i = bytes) : Gap (source.drop token.span.start)
      ((source.drop (lastStop i before)).take (token.span.start - lastStop i before)) := by
  generalize hall : before ++ token :: after = tokens at h
  induction h generalizing before with
  | @finish i gap hgap =>
    obtain ⟨rfl, rfl, rfl⟩ : before = [] ∧ token = _ ∧ after = [] := by
      simpa [List.append_eq_singleton_iff] using hall
    change Gap (source.drop (i + gap.length)) ((source.drop i).take (i + gap.length - i))
    rw [← List.drop_drop, hsource, List.drop_length, Nat.add_sub_cancel_left, List.take_length]
    exact hgap
  | @step i gap after' kind text tokens hgap _ _ _ ih =>
    have hword : source.drop (i + gap.length) = Bytes.ofText text ++ after' := by
      rw [← List.drop_drop, hsource, List.drop_left]
    -- The gap stands in front of this token, or of one that the rest holds.
    cases before with
    | nil =>
      obtain ⟨rfl, rfl⟩ := List.cons.inj hall
      change Gap (source.drop (i + gap.length)) ((source.drop i).take (i + gap.length - i))
      rw [hword, hsource, Nat.add_sub_cancel_left, List.take_left]
      exact hgap
    | cons first before =>
      obtain ⟨rfl, htail⟩ := List.cons.inj hall
      rw [lastStop_cons]
      exact ih (by rw [← List.drop_drop, hword, List.drop_left]) htail

end Tiles

/-- The tokens of a source lie in it one behind the other. Each tells what the source holds in its
place, and only the last, the end of the source, holds nothing. What is left over between them is
blanks and comments. -/
theorem lex_lossless {text : String} {tokens : List Token} (h : lex text = .ok tokens) :
    (∃ inner last, tokens = inner ++ [last] ∧ last.kind = .endOfSource ∧
      last.span = .emptyAt text.utf8ByteSize ∧
      ∀ token ∈ inner, token.kind ≠ .endOfSource ∧ token.span.start < token.span.stop) ∧
    tokens.Pairwise (fun a b => a.span.stop ≤ b.span.start) ∧
    (∀ token ∈ tokens, token.span.stop ≤ text.utf8ByteSize ∧ Bytes.ofText token.text =
      ((Bytes.ofText text).drop token.span.start).take (token.span.stop - token.span.start)) ∧
    ∀ before token after, tokens = before ++ token :: after →
      Gap ((Bytes.ofText text).drop token.span.start)
        (((Bytes.ofText text).drop (lastStop 0 before)).take
          (token.span.start - lastStop 0 before)) := by
  have htiles := lex_eq_ok_iff.mp h
  have hsource : (Bytes.ofText text).drop 0 = Bytes.ofText text := List.drop_zero
  refine ⟨?_, htiles.ordered, fun token ht => ⟨?_, htiles.text_eq hsource ht⟩, ?_⟩
  · obtain ⟨inner, rfl, hinner⟩ := htiles.split_last
    rw [Bytes.length_ofText, Nat.zero_add]
    exact ⟨inner, _, rfl, rfl, rfl, hinner⟩
  · have := (htiles.bounds ht).2.2
    rwa [Bytes.length_ofText, Nat.zero_add] at this
  · rintro before token after rfl
    exact htiles.gap hsource

/-- A block comment whose opening mark overlaps a closing one, and a line comment at the end. -/
def commented : String := "x=/*/ */\"é\"// end"

def commentedTokens : List Token :=
  [⟨.identifier, ⟨0, 1⟩, "x", .source⟩, ⟨.assign, ⟨1, 2⟩, "=", .source⟩,
    ⟨.stringLiteral, ⟨8, 12⟩, "\"é\"", .source⟩, ⟨.endOfSource, ⟨18, 18⟩, "", .source⟩]

theorem lex_lossless_commented : lex commented = .ok commentedTokens ∧
    Gap ((Bytes.ofText commented).drop 8) (((Bytes.ofText commented).drop 2).take 6) ∧
    Gap ((Bytes.ofText commented).drop 18) (((Bytes.ofText commented).drop 12).take 6) := by
  have hlex : lex commented = .ok commentedTokens := by decide +kernel
  obtain ⟨-, -, -, hgap⟩ := lex_lossless hlex
  exact ⟨hlex, hgap (commentedTokens.take 2) _ (commentedTokens.drop 3) rfl,
    hgap (commentedTokens.take 3) _ [] rfl⟩

end SyntaxRecovery
