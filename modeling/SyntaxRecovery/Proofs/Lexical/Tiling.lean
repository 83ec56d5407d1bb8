import SyntaxRecovery.Proofs.Lexical.Boundaries
import SyntaxRecovery.Proofs.Lexical.Gaps

/-! The tokens of a source, and blanks and comments between them, make up the whole source. -/
namespace SyntaxRecovery
open Trivia

/-- At the front of what goes on with `after`, `word` is read as one token. -/
def Lexeme.Reads (kind : TokenKind) (word after : Bytes) : Prop := ∃ first rest,
  word ++ after = first :: rest ∧ read first rest = .token kind word.length

theorem Lexeme.Reads.ne_nil {kind : TokenKind} {word after : Bytes} (h : Reads kind word after) :
    word ≠ [] := by
  obtain ⟨first, rest, -, h⟩ := h
  exact List.ne_nil_of_length_pos (read_pos h)

/-- From offset `i` on the source consists of `bytes`, and these of gaps and the texts of tokens. -/
inductive Tiles : Nat → Bytes → List Token → Prop
  | finish {i : Nat} {gap : Bytes} (hgap : Gap [] gap) :
    Tiles i gap [⟨.endOfSource, .emptyAt (i + gap.length), "", .source⟩]
  | step {i : Nat} {gap after : Bytes} {kind : TokenKind} {text : String} {tokens : List Token}
    (hgap : Gap (Bytes.ofText text ++ after) gap) (hclear : Clear (Bytes.ofText text ++ after))
    (hread : Lexeme.Reads kind (Bytes.ofText text) after)
    (rest : Tiles (i + gap.length + (Bytes.ofText text).length) after tokens) :
    Tiles i (gap ++ (Bytes.ofText text ++ after))
      (⟨kind, ⟨i + gap.length, i + gap.length + (Bytes.ofText text).length⟩, text,
        .source⟩ :: tokens)

namespace Bytes

theorem text_nil : text [] = "" := by decide +kernel

theorem toByteArray_inj {bytes bytes' : Bytes} (h : bytes.toByteArray = bytes'.toByteArray) :
    bytes = bytes' := by
  rw [← List.toList_data_toByteArray (l := bytes), h, List.toList_data_toByteArray]

theorem toByteArray_ofText (s : String) : (ofText s).toByteArray = s.toByteArray := by
  have h := toByteArray_slice s 0 (ofText s).length
  rw [List.drop_zero, Nat.sub_zero, List.take_length] at h
  rw [h]
  exact ByteArray.extract_zero_size

theorem text_ofText (s : String) : text (ofText s) = s := by
  have h : (ofText s).toByteArray.IsValidUTF8 := by
    rw [toByteArray_ofText]
    exact s.isValidUTF8
  unfold text text? String.fromUTF8?
  rw [dif_pos h]
  exact String.toByteArray_inj.mp (toByteArray_ofText s)

end Bytes

namespace Scanner
variable {s t : Scanner} {kind : TokenKind} {gap word after : Bytes} {text : String}
  {tokens all : List Token} {last : Token}

theorem next_of_finish (hrest : s.place.rest = gap) (hgap : Gap [] gap) :
    s.next = (.ok .endOfSource, s.pass gap.length 0) := by
  have hskip : skip 0 s.place.rest = .ok gap.length := by
    rw [hrest, ← List.append_nil gap, hgap.skip_append, skip_clear clear_nil, Nat.zero_add,
      List.append_nil]
  unfold next
  split
  · next h => cases hskip.symm.trans h
  · next h =>
    cases hskip.symm.trans h
    dsimp only
    split
    · rfl
    · next hr =>
      have hnil : s.place.rest.drop gap.length = [] := by rw [hrest, List.drop_length]
      cases hnil.symm.trans hr

theorem next_of_reads (hrest : s.place.rest = gap ++ (word ++ after))
    (hgap : Gap (word ++ after) gap) (hclear : Clear (word ++ after))
    (hread : Lexeme.Reads kind word after) :
    s.next = (.ok kind, s.pass gap.length word.length) := by
  have hskip : skip 0 s.place.rest = .ok gap.length := by
    rw [hrest, hgap.skip_append, skip_clear hclear, Nat.zero_add]
  obtain ⟨first, rest, hword, hread⟩ := hread
  have hdrop : s.place.rest.drop gap.length = first :: rest := by
    rw [hrest, List.drop_left, hword]
  rw [next_of_read hskip hdrop, hread]

theorem next_of_clear {first : UInt8} {rest : Bytes} (hrest : s.place.rest = first :: rest)
    (hclear : Clear (first :: rest)) : s.next = match Lexeme.read first rest with
      | .token kind length => (.ok kind, s.pass 0 length)
      | .failed fault offset length =>
        (.error (.lexical ⟨fault, s.position + offset⟩), s.pass 0 length)
      | .midCharacter => (.error .midCharacter, s.pass 0 0) := by
  have hskip : skip 0 s.place.rest = .ok 0 := by rw [hrest, skip_clear hclear]
  exact next_of_read hskip hrest

/-- A token is found behind all blanks and comments, the end where there is nothing else. -/
theorem next_sound (h : s.next = (.ok kind, t)) : ∃ gap after, s.place.rest = gap ++ after ∧
    Gap after gap ∧ Clear after ∧
      (kind = .endOfSource ∧ after = [] ∧ t = s.pass gap.length 0 ∨
        ∃ word rest, after = word ++ rest ∧ Lexeme.Reads kind word rest ∧
          t = s.pass gap.length word.length) := by
  unfold next at h
  split at h
  · cases h
  · next length hl =>
    obtain ⟨gap, after, heq, rfl, hgap, hclear⟩ := skip_sound hl
    rw [Nat.zero_add] at *
    have hdrop : s.place.rest.drop gap.length = after := by rw [heq, List.drop_left]
    refine ⟨gap, after, heq, hgap, hclear, ?_⟩
    dsimp only at h
    split at h
    · next hr =>
      cases h
      exact .inl ⟨rfl, hdrop.symm.trans hr, rfl⟩
    · next first rest hr =>
      have hafter : after = first :: rest := hdrop.symm.trans hr
      split at h
      · next n hread =>
        cases h
        have hle := Lexeme.read_extent_le first rest
        rw [hread] at hle
        have hlen : (after.take n).length = n := by
          rw [List.length_take, hafter, List.length_cons]
          exact Nat.min_eq_left hle
        refine .inr ⟨after.take n, after.drop n, (List.take_append_drop n after).symm,
          ⟨first, rest, ?_, ?_⟩, ?_⟩
        · rw [List.take_append_drop, hafter]
        · rw [hlen, hread]
        · rw [hlen]
          rfl
      · cases h
      · cases h

theorem pass_rest (hrest : s.place.rest = gap ++ (word ++ after)) :
    (s.pass gap.length word.length).place.rest = after := by
  change (s.place.rest.drop gap.length).drop word.length = after
  rw [hrest, List.drop_left, List.drop_left]

theorem token_pass (hrest : s.place.rest = gap ++ (word ++ after)) :
    (s.pass gap.length word.length).token kind =
      ⟨kind, ⟨s.position + gap.length, s.position + gap.length + word.length⟩, Bytes.text word,
        .source⟩ := by
  have hopening : (s.pass gap.length word.length).opening.rest = word ++ after := by
    change s.place.rest.drop gap.length = word ++ after
    rw [hrest, List.drop_left]
  have hlength : (s.pass gap.length word.length).position -
      (s.pass gap.length word.length).tokenStart = word.length := Nat.add_sub_cancel_left _ _
  have htext : (s.pass gap.length word.length).tokenText = Bytes.text word := by
    rw [tokenText, hopening, hlength, List.take_left]
  rw [token, htext]
  rfl

theorem token_pass_finish : (s.pass gap.length 0).token .endOfSource =
    ⟨.endOfSource, .emptyAt (s.position + gap.length), "", .source⟩ := by
  have htext : (s.pass gap.length 0).tokenText = "" := by
    have hlength : (s.pass gap.length 0).position - (s.pass gap.length 0).tokenStart = 0 :=
      Nat.sub_self _
    rw [tokenText, hlength, List.take_zero, Bytes.text_nil]
  rw [token, htext]
  rfl

/-- A word that is read as a token is text, also apart from the source. -/
theorem ofText_text_word (h : s.next = (.ok kind, s.pass gap.length word.length))
    (hrest : s.place.rest = gap ++ (word ++ after)) (hplace : s.position ≤ s.source.length)
    (hsource : s.source = Bytes.ofText text) : Bytes.ofText (Bytes.text word) = word := by
  have htext := ofText_token_text h hplace hsource
  have hdrop : (Bytes.ofText text).drop (s.position + gap.length) = word ++ after := by
    rw [← List.drop_drop, ← place_rest hsource, hrest, List.drop_left]
  rw [token_pass hrest] at htext
  refine htext.trans ?_
  change ((Bytes.ofText text).drop (s.position + gap.length)).take
    (s.position + gap.length + word.length - (s.position + gap.length)) = word
  rw [hdrop, Nat.add_sub_cancel_left, List.take_left]

/-- A token that stands right here is found with its text. -/
theorem token_of_reads (hsource : s.source = Bytes.ofText text)
    (hrest : s.place.rest = word ++ after) (hclear : Clear (word ++ after))
    (hread : Lexeme.Reads kind word after) : s.next.1 = .ok kind ∧ ∃ found,
      Bytes.ofText found = word ∧
        s.next.2.token kind = ⟨kind, ⟨s.position, s.position + word.length⟩, found, .source⟩ := by
  have hplace : s.position ≤ s.source.length := by
    have hpos := List.length_pos_of_ne_nil hread.ne_nil
    have hlength := s.length_rest
    rw [hrest, List.length_append] at hlength
    omega
  have hsplit : s.place.rest = [] ++ (word ++ after) := hrest
  have hnext := next_of_reads hsplit .nil hclear hread
  have htext := ofText_text_word hnext hsplit hplace hsource
  rw [hnext]
  exact ⟨rfl, _, htext, token_pass hsplit⟩

/-- What a scan finds makes up the source. -/
theorem Scans.tiles (hs : s.Scans tokens last) (hsource : s.source = Bytes.ofText text)
    (hplace : s.position ≤ s.source.length) :
    Tiles s.position s.place.rest (tokens ++ [last]) := by
  induction hs with
  | @finish s t h =>
    obtain ⟨gap, after, hrest, hgap, -, ⟨-, rfl, rfl⟩ | ⟨word, rest, rfl, hread, rfl⟩⟩ :=
      next_sound h
    · rw [hrest, List.append_nil, token_pass_finish]
      exact .finish hgap
    · obtain ⟨first, rest, -, hread⟩ := hread
      exact absurd rfl (Lexeme.read_ends hread).1
  | @step s t kind tokens last h hk _ ih =>
    have hstep := next_steps h hplace
    obtain ⟨gap, after, hrest, hgap, hclear, ⟨hend, -⟩ | ⟨word, rest, rfl, hread, rfl⟩⟩ :=
      next_sound h
    · exact absurd hend hk
    · have htail := ih (hstep.source_eq.trans hsource)
        (by rw [hstep.source_eq]; exact hstep.position_le_length)
      rw [pass_rest hrest] at htail
      have hword := ofText_text_word h hrest hplace hsource
      rw [hrest, List.cons_append, token_pass hrest]
      -- The word is given by its text from here on.
      generalize Bytes.text word = text at hword
      subst hword
      exact .step hgap hclear hread htail

theorem scans_of_tiles {i : Nat} {bytes : Bytes} (h : Tiles i bytes all)
    (hposition : s.position = i) (hrest : s.place.rest = bytes) :
    ∃ tokens last, s.Scans tokens last ∧ all = tokens ++ [last] := by
  induction h generalizing s with
  | finish hgap =>
    subst hposition
    refine ⟨[], _, .finish (next_of_finish hrest hgap), ?_⟩
    rw [token_pass_finish]
    rfl
  | @step i gap after kind text tokens hgap hclear hread _ ih =>
    subst hposition
    have hkind : kind ≠ .endOfSource := by
      obtain ⟨first, rest, -, hread⟩ := hread
      exact (Lexeme.read_ends hread).1
    obtain ⟨inner, last, hscans, rfl⟩ := ih rfl (pass_rest hrest)
    refine ⟨_, last, .step (next_of_reads hrest hgap hclear hread) hkind hscans, ?_⟩
    rw [token_pass hrest, Bytes.text_ofText]
    rfl

end Scanner

/-- A source is taken apart into these tokens exactly when they make it up. -/
theorem lex_eq_ok_iff {text : String} {tokens : List Token} :
    lex text = .ok tokens ↔ Tiles 0 (Bytes.ofText text) tokens := by
  rw [lex, Scanner.collect_eq_ok_iff]
  constructor
  · rintro ⟨inner, last, hs, rfl⟩
    exact hs.tiles rfl (Nat.zero_le _)
  · intro h
    obtain ⟨inner, last, hs, rfl⟩ := Scanner.scans_of_tiles (s := .ofText text) h rfl rfl
    exact ⟨inner, last, hs, rfl⟩

end SyntaxRecovery
