import SyntaxRecovery.Proofs.Lexical.Numbers
import SyntaxRecovery.Proofs.Lexical.Spacing

/-! The longest token wins: the text of a token is read as that token also alone, and with more of
the source behind it there is no single token any more. -/
namespace SyntaxRecovery
open Trivia

/-- A punctuator is told from the first two bytes. -/
theorem Punctuator.read?_append_of_two_le {word : Bytes} (h : 2 ≤ word.length)
    (after after' : Bytes) : read? (word ++ after') = read? (word ++ after) := by
  match word with
  | [] | [_] => exact absurd h (by simp)
  | a :: b :: word => rfl

namespace Lexeme
variable {kind kind' : TokenKind} {first : UInt8} {word between after after' : Bytes}

theorem reads_cons : Reads kind (first :: word) after ↔
    read first (word ++ after) = .token kind (first :: word).length := by
  constructor
  · rintro ⟨_, _, hsplit, h⟩
    obtain ⟨rfl, rfl⟩ := List.cons.inj hsplit
    exact h
  · intro h
    exact ⟨first, word ++ after, rfl, h⟩

theorem run_eq_of_word {bytes : Bytes} {n : Nat} (h : Lexeme.word bytes = .token kind n) :
    Bytes.run Byte.inWord bytes = n := by
  obtain ⟨-, hnone⟩ | ⟨text, -, hsome⟩ := word_cases h
  · cases hnone
  · exact (Reading.token.inj hsome).2.symm

/-- Where a token is read, no longer one is read in any text that goes on in the same way. -/
theorem Reads.eq_nil (h : Reads kind word (between ++ after))
    (h' : Reads kind' (word ++ between) after') : between = [] := by
  obtain ⟨c, tail, rfl⟩ := List.exists_cons_of_ne_nil h.ne_nil
  rw [List.cons_append, reads_cons, List.append_assoc] at h'
  rw [reads_cons] at h
  refine List.eq_nil_of_length_eq_zero (Nat.eq_zero_of_not_pos fun hpos => ?_)
  have hlt : (c :: tail).length < (c :: (tail ++ between)).length := by
    simp only [List.length_cons, List.length_append]
    omega
  -- The first byte is the same, so the same reader reads both times.
  cases read_eq_iff.mp h with
  | quoted hquote hmark hread =>
    have hread' := (read_eq_iff.mpr (.quoted hquote hmark rfl)).symm.trans h'
    have hlength : (c :: tail).length = 1 + tail.length := by rw [List.length_cons, Nat.add_comm]
    have hsame := Quoted.body_append hread (between ++ after') rfl hlength
    exact Nat.ne_of_lt hlt (Reading.token.inj (hsame.symm.trans hread')).2
  | number hmark hdigit hread =>
    have hread' := (read_eq_iff.mpr (.number hmark hdigit rfl)).symm.trans h'
    have hlongest := Number.longest_of_read hdigit hread
    have hmem := (Number.longest_of_read hdigit hread').mem
    rw [List.length_cons, List.take_succ_cons, ← List.append_assoc, List.take_left] at hmem
    rw [← List.cons_append, List.take_left, List.drop_left] at hlongest
    have hsplit : c :: (tail ++ between) ++ after = c :: tail ++ (between ++ after) := by simp
    rcases hlongest.best hsplit hmem with hlt' | ⟨heq, -⟩
    · exact Nat.lt_asymm hlt hlt'
    · exact Nat.ne_of_gt hlt (congrArg List.length heq)
  | word hmark hdigit hstart hread =>
    have hread' := (read_eq_iff.mpr (.word hmark hdigit hstart rfl)).symm.trans h'
    have hrun := run_eq_of_word hread
    have hrun' := run_eq_of_word hread'
    rw [← List.append_assoc, ← List.cons_append] at hrun hrun'
    rw [Bytes.run_append_of_lt (hrun ▸ hlt) after', hrun] at hrun'
    exact Nat.ne_of_lt hlt hrun'
  | punctuator hmark hdigit hstart hread =>
    have htwo : 2 ≤ (c :: (tail ++ between)).length := Nat.le_trans (by simp) hlt
    have hsame := Punctuator.read?_append_of_two_le htwo after after'
    rw [List.cons_append, List.cons_append, List.append_assoc, List.append_assoc, hread] at hsame
    have hread' := read_eq_iff.mpr (.punctuator hmark hdigit hstart hsame)
    exact Nat.ne_of_lt hlt (Reading.token.inj (hread'.symm.trans h')).2

end Lexeme

namespace Bytes

theorem ofText_inj {s t : String} (h : ofText s = ofText t) : s = t := by
  rw [← text_ofText s, h, text_ofText]

theorem ofText_extract {text : String} (start stop : text.Pos) :
    ofText (String.extract start stop) = ((ofText text).drop start.offset.byteIdx).take
      (stop.offset.byteIdx - start.offset.byteIdx) := by
  apply toByteArray_inj
  rw [toByteArray_ofText, toByteArray_slice, String.toByteArray_extract]

/-- Where a text goes on with another one, this one stands between two of its positions. -/
theorem exists_extract {text word : String} {b : Nat} {after : Bytes}
    (hdrop : (ofText text).drop b = ofText word ++ after) (hne : ofText word ≠ []) :
    ∃ start stop : text.Pos, start.offset.byteIdx = b ∧
      stop.offset.byteIdx = b + (ofText word).length ∧ String.extract start stop = word := by
  have hpos : 0 < (ofText word).length := List.length_pos_of_ne_nil hne
  have htotal := congrArg List.length hdrop
  rw [List.length_drop, List.length_append] at htotal
  have hslice : ((ofText text).drop b).take (b + (ofText word).length - b) = ofText word := by
    rw [hdrop, Nat.add_sub_cancel_left, List.take_left]
  have hlt : b < b + (ofText word).length := by omega
  have hle : b + (ofText word).length ≤ (ofText text).length := by omega
  obtain ⟨hb, he⟩ := isValid_of_slice hlt hle
    (by rw [hslice, toByteArray_ofText]; exact word.isValidUTF8)
  exact ⟨⟨⟨b⟩, hb⟩, ⟨⟨b + (ofText word).length⟩, he⟩, rfl, rfl,
    ofText_inj ((ofText_extract _ _).trans hslice)⟩

/-- What stands from there on up to a later position. -/
theorem exists_extract_later {text word : String} {after : Bytes} {start later : text.Pos}
    (hdrop : (ofText text).drop start.offset.byteIdx = ofText word ++ after)
    (hlater : start.offset.byteIdx + (ofText word).length < later.offset.byteIdx) :
    ∃ between behind, after = between ++ behind ∧ between ≠ [] ∧
      ofText (String.extract start later) = ofText word ++ between ∧
      later.offset.byteIdx - start.offset.byteIdx = (ofText word ++ between).length := by
  obtain ⟨n, hn⟩ := Nat.exists_eq_add_of_lt hlater
  have hle : later.offset.byteIdx ≤ (ofText text).length := by
    rw [length_ofText]
    exact later.isValid.le_rawEndPos
  have htotal := congrArg List.length hdrop
  rw [List.length_drop, List.length_append] at htotal
  have hlength : (after.take (n + 1)).length = n + 1 := by
    rw [List.length_take]
    omega
  refine ⟨after.take (n + 1), after.drop (n + 1), (List.take_append_drop _ _).symm, ?_, ?_, ?_⟩
  · exact List.ne_nil_of_length_eq_add_one hlength
  · rw [ofText_extract, hdrop, hn, Nat.add_assoc, Nat.add_assoc, Nat.add_sub_cancel_left,
      List.take_length_add_append]
  · rw [List.length_append, hlength]
    omega

end Bytes

namespace Tiles
variable {i : Nat} {bytes source : Bytes} {tokens : List Token} {token first last : Token}

/-- Where a token stands the source goes on with its text, and this is read as the token. -/
theorem reads (h : Tiles i bytes tokens) (hsource : source.drop i = bytes) (ht : token ∈ tokens)
    (hkind : token.kind ≠ .endOfSource) : ∃ after,
      source.drop token.span.start = Bytes.ofText token.text ++ after ∧
        token.span.stop = token.span.start + (Bytes.ofText token.text).length ∧
        token.origin = .source ∧ Clear (Bytes.ofText token.text ++ after) ∧
        Lexeme.Reads token.kind (Bytes.ofText token.text) after := by
  induction h with
  | finish =>
    cases List.mem_singleton.mp ht
    exact absurd rfl hkind
  | @step i gap after kind text tokens hgap hclear hread _ ih =>
    have hword : source.drop (i + gap.length) = Bytes.ofText text ++ after := by
      rw [← List.drop_drop, hsource, List.drop_left]
    rcases List.mem_cons.mp ht with rfl | ht
    · exact ⟨after, hword, rfl, rfl, hclear, hread⟩
    · exact ih (by rw [← List.drop_drop, hword, List.drop_left]) ht

/-- A source of one token that takes up all of it is read as this token. -/
theorem reads_all (h : Tiles 0 bytes [first, last]) (hspan : first.span = ⟨0, bytes.length⟩) :
    Lexeme.Reads first.kind bytes [] := by
  cases h with
  | @step _ gap after kind text _ _ _ hread =>
    simp only [List.length_append, Span.mk.injEq, Nat.zero_add] at hspan
    obtain rfl : gap = [] := List.eq_nil_of_length_eq_zero hspan.1
    obtain rfl : after = [] := List.eq_nil_of_length_eq_zero (by omega)
    rwa [List.append_nil, List.nil_append]

end Tiles

/-- The token in a source that holds nothing else, and the end of this source. -/
def Token.alone (token : Token) : List Token :=
  [{ token with span := ⟨0, token.span.length⟩ },
    ⟨.endOfSource, .emptyAt token.span.length, "", .source⟩]

theorem lex_alone {kind : TokenKind} {text : String} {span : Span}
    (hlength : span.length = (Bytes.ofText text).length) (hclear : Clear (Bytes.ofText text))
    (hread : Lexeme.Reads kind (Bytes.ofText text) []) :
    lex text = .ok (Token.alone ⟨kind, span, text, .source⟩) := by
  have htiles : Tiles 0 ([] ++ (Bytes.ofText text ++ [])) _ :=
    .step .nil (by rwa [List.append_nil]) hread (.finish .nil)
  rw [List.append_nil, List.nil_append, ← lex_eq_ok_iff] at htiles
  simpa [Token.alone, hlength] using htiles

/-- The text of each token gives this token when it stands alone. With more of the source behind it,
up to where any other character ends, it does not give a single token. The source has less than 4
GiB, and so the span of the token has 32 bits. -/
theorem lex_maximal {text : String} {tokens : List Token} {token : Token}
    (hsize : (Bytes.ofText text).length < Nat.pow 2 32) (h : lex text = .ok tokens)
    (ht : token ∈ tokens) (hkind : token.kind ≠ .endOfSource) : ∃ start stop : text.Pos,
      token.span = ⟨start.offset.byteIdx, stop.offset.byteIdx⟩ ∧ token.span.FitsWords ∧
      lex (String.extract start stop) = .ok token.alone ∧
      ∀ later : text.Pos, stop < later → ∀ first last,
        lex (String.extract start later) = .ok [first, last] →
          first.span ≠ ⟨0, later.offset.byteIdx - start.offset.byteIdx⟩ := by
  obtain ⟨after, hdrop, hstop, horigin, hclear, hread⟩ :=
    (lex_eq_ok_iff.mp h).reads List.drop_zero ht hkind
  obtain ⟨kind, ⟨b, e⟩, word, origin⟩ := token
  dsimp only at hdrop hstop horigin hclear hread
  subst horigin hstop
  have hfits : Span.FitsWords ⟨b, b + (Bytes.ofText word).length⟩ :=
    .of_drop hsize hdrop hread.ne_nil
  obtain ⟨start, stop, rfl, hstop, rfl⟩ := Bytes.exists_extract hdrop hread.ne_nil
  refine ⟨start, stop, by rw [hstop], hfits, ?_, fun later hlater first last hlex hspan => ?_⟩
  · have hparted : Bytes.Parted [] := fun b hb => nomatch hb
    have hclear' := hclear.append hread.ne_nil hparted
    rw [List.append_nil] at hclear'
    exact lex_alone (Nat.add_sub_cancel_left _ _) hclear' (hread.append hparted)
  · have hlt : stop.offset.byteIdx < later.offset.byteIdx := hlater
    rw [hstop] at hlt
    obtain ⟨between, behind, rfl, hne, hlonger, hlength⟩ := Bytes.exists_extract_later hdrop hlt
    have htiles := lex_eq_ok_iff.mp hlex
    rw [hlonger] at htiles
    rw [hlength] at hspan
    exact hne (hread.eq_nil (htiles.reads_all hspan))

def divided : List Token :=
  [⟨.identifier, ⟨0, 3⟩, "aé", .source⟩, ⟨.slashAssign, ⟨3, 5⟩, "/=", .source⟩,
    ⟨.floatingPointLiteral, ⟨5, 11⟩, "0.5e1f", .source⟩, ⟨.endOfSource, ⟨13, 13⟩, "", .source⟩]

theorem lex_maximal_divided : (Bytes.ofText "aé/=0.5e1f//").length < Nat.pow 2 32 ∧
    lex "aé/=0.5e1f//" = .ok divided ∧
    ∃ start stop : "aé/=0.5e1f//".Pos,
      ⟨3, 5⟩ = Span.mk start.offset.byteIdx stop.offset.byteIdx ∧ Span.FitsWords ⟨3, 5⟩ ∧
      lex (String.extract start stop) = .ok [⟨.slashAssign, ⟨0, 2⟩, "/=", .source⟩,
        ⟨.endOfSource, ⟨2, 2⟩, "", .source⟩] ∧
      ∀ later, stop < later → ∀ first last, lex (String.extract start later) = .ok [first, last] →
        first.span ≠ ⟨0, later.offset.byteIdx - start.offset.byteIdx⟩ := by
  have hsize : (Bytes.ofText "aé/=0.5e1f//").length < Nat.pow 2 32 := by decide +kernel
  have hlex : lex "aé/=0.5e1f//" = .ok divided := by decide +kernel
  have hmem : ⟨.slashAssign, ⟨3, 5⟩, "/=", .source⟩ ∈ divided := .tail _ (.head _)
  exact ⟨hsize, hlex, lex_maximal hsize hlex hmem (by decide)⟩

end SyntaxRecovery
