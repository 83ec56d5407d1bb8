import SyntaxRecovery.Proofs.Lexical.Ascii
import SyntaxRecovery.Proofs.Lexical.Scans

/-! A scan never cuts a character apart: every token starts and ends where a character does, so its
text is what the source holds in its place. -/
namespace SyntaxRecovery

/-- In a source of less than 4 GiB the ends of a word have 32 bits. -/
theorem Span.FitsWords.of_drop {source word after : Bytes} {i : Nat}
    (hsize : source.length < Nat.pow 2 32) (hdrop : source.drop i = word ++ after)
    (hne : word ≠ []) : Span.FitsWords ⟨i, i + word.length⟩ := by
  have hlength := congrArg List.length hdrop
  rw [List.length_drop, List.length_append] at hlength
  have hpos := List.length_pos_iff.mpr hne
  have hstop : i + word.length ≤ source.length := by omega
  exact ⟨Nat.lt_of_le_of_lt (Nat.le_of_add_right_le hstop) hsize, Nat.lt_of_le_of_lt hstop hsize⟩

namespace Bytes
variable {text : String} {i j : Nat} {b : UInt8} {bytes : Bytes}

theorem length_ofText (text : String) : (ofText text).length = text.utf8ByteSize :=
  String.size_toByteArray

/-- A byte below 128 is a character of its own. -/
theorem isValidUTF8_of_lt (h : b < 128) : [b].toByteArray.IsValidUTF8 := by
  have hsize : (Char.ofUInt8 b).utf8Size = 1 := by
    rw [Char.utf8Size_eq_one_iff]
    change b.toUInt32 ≤ 127
    rw [UInt32.le_iff_toNat_le]
    rw [UInt8.lt_iff_toNat_lt] at h
    simp only [UInt8.toNat_toUInt32, UInt32.reduceToNat, UInt8.reduceToNat] at h ⊢
    omega
  have henc : String.utf8EncodeChar (Char.ofUInt8 b) = [b] := by
    rw [String.utf8EncodeChar_eq_singleton hsize]
    show [b.toUInt32.toUInt8] = [b]
    rw [UInt8.toUInt8_toUInt32]
  rw [← henc]
  exact Char.isValidUTF8_toByteArray_utf8EncodeChar

theorem toByteArray_slice (text : String) (i j : Nat) :
    (((ofText text).drop i).take (j - i)).toByteArray = text.toByteArray.extract i j := by
  apply ByteArray.ext
  apply Array.toList_inj.mp
  rw [List.toList_data_toByteArray, ByteArray.data_extract, Array.toList_extract,
    List.extract_eq_take_drop]
  rfl

/-- A text that is cut out of another starts and ends with a character. -/
theorem isValid_of_slice (hij : i < j) (hj : j ≤ (ofText text).length)
    (h : (((ofText text).drop i).take (j - i)).toByteArray.IsValidUTF8) :
    String.Pos.Raw.IsValid text ⟨i⟩ ∧ String.Pos.Raw.IsValid text ⟨j⟩ := by
  rw [toByteArray_slice] at h
  rcases (String.Pos.Raw.isValidUTF8_extract_iff (s := text) ⟨i⟩ ⟨j⟩ (Nat.le_of_lt hij)
    hj).mp h with heq | hends
  · exact absurd (congrArg String.Pos.Raw.byteIdx heq) (Nat.ne_of_lt hij)
  · exact hends

/-- Before and behind a byte below 128 a character starts, or the text ends. -/
theorem isValid_of_lt (h : (ofText text)[i]? = some b) (hb : b < 128) :
    String.Pos.Raw.IsValid text ⟨i⟩ ∧ String.Pos.Raw.IsValid text ⟨i + 1⟩ := by
  obtain ⟨hi, rfl⟩ := List.getElem?_eq_some_iff.mp h
  have hslice : ((ofText text).drop i).take (i + 1 - i) = [(ofText text)[i]] := by
    rw [Nat.add_sub_cancel_left, List.drop_eq_getElem_cons hi]
    rfl
  refine isValid_of_slice (Nat.lt_succ_self i) hi ?_
  rw [hslice]
  exact isValidUTF8_of_lt hb

theorem isValidUTF8_of_text? (h : text? bytes = some text) : bytes.toByteArray.IsValidUTF8 := by
  unfold text? String.fromUTF8? at h
  split at h
  · assumption
  · cases h

theorem ofText_text (h : bytes.toByteArray.IsValidUTF8) : ofText bytes.text = bytes := by
  unfold Bytes.text text? String.fromUTF8?
  rw [dif_pos h]
  simp [ofText, String.fromUTF8]

/-- Bytes that start and end with a character are text. -/
theorem isValidUTF8_slice (hi : String.Pos.Raw.IsValid text ⟨i⟩)
    (hj : String.Pos.Raw.IsValid text ⟨j⟩) (hij : i ≤ j) :
    (((ofText text).drop i).take (j - i)).toByteArray.IsValidUTF8 := by
  rw [toByteArray_slice]
  exact (String.Pos.Raw.isValidUTF8_extract_iff (s := text) ⟨i⟩ ⟨j⟩ hij
    hj.le_rawEndPos).mpr (.inr ⟨hi, hj⟩)

end Bytes

namespace Scanner
variable {s t : Scanner} {kind : TokenKind} {text : String}

theorem place_rest (hsource : s.source = Bytes.ofText text) :
    s.place.rest = (Bytes.ofText text).drop s.position :=
  s.place.rest_eq.trans (congrArg (List.drop s.position) hsource)

/-- The end of the source is found there and nowhere before. -/
theorem next_endOfSource (h : s.next = (.ok .endOfSource, t))
    (hs : s.position ≤ s.source.length) :
    t.tokenStart = s.source.length ∧ t.position = s.source.length := by
  unfold next at h
  split at h
  · cases h
  · next length hl =>
    have hskip := Trivia.skip_bounds hl
    have hrest := s.length_rest
    dsimp only at h
    split at h
    · next hend =>
      cases h
      have := congrArg List.length hend
      simp only [Cursor.advance, List.length_drop, List.length_nil] at this
      constructor <;> simp only [position, tokenStart, Cursor.advance] at * <;> omega
    · split at h
      · next hread =>
        cases h
        exact absurd rfl (Lexeme.read_ends hread).1
      · cases h
      · cases h

/-- A step that fails goes on in the source too. -/
theorem next_error {failure : ScanFailure} (h : s.next = (.error failure, t))
    (hs : s.position ≤ s.source.length) :
    t.source = s.source ∧ s.position ≤ t.position ∧ t.position ≤ s.source.length := by
  have hrest := s.length_rest
  unfold next at h
  split at h
  · cases h
    refine ⟨rfl, ?_⟩
    simp only [position, Cursor.finish, Cursor.advance] at *
    omega
  · next length hl =>
    have hskip := Trivia.skip_bounds hl
    dsimp only at h
    split at h
    · cases h
    · next first rest hr =>
      have hlen : s.place.rest.length - length = rest.length + 1 := by
        simpa [Cursor.advance] using congrArg List.length hr
      split at h
      · cases h
      · next hread =>
        have := Lexeme.read_extent_le first rest
        simp only [hread, Reading.extent] at this
        cases h
        refine ⟨rfl, ?_⟩
        simp only [position, Cursor.advance] at *
        omega
      · cases h
        refine ⟨rfl, ?_⟩
        simp only [position, Cursor.advance] at *
        omega

/-- What a step reads where the token starts. -/
theorem next_reads (h : s.next = (.ok kind, t)) (hk : kind ≠ .endOfSource) :
    ∃ first rest n, s.source.drop t.tokenStart = first :: rest ∧
      Lexeme.read first rest = .token kind n ∧ t.position = t.tokenStart + n := by
  unfold next at h
  split at h
  · cases h
  · next length hl =>
    dsimp only at h
    split at h
    · cases h
      exact absurd rfl hk
    · next first rest hr =>
      split at h
      · next n hread =>
        cases h
        exact ⟨first, rest, n, (s.place.advance length).rest_eq.symm.trans hr, hread, rfl⟩
      · cases h
      · cases h

/-- A token starts and ends where a character does. -/
theorem next_isValid (h : s.next = (.ok kind, t)) (hs : s.position ≤ s.source.length)
    (hsource : s.source = Bytes.ofText text) :
    String.Pos.Raw.IsValid text ⟨t.tokenStart⟩ ∧ String.Pos.Raw.IsValid text ⟨t.position⟩ := by
  by_cases hk : kind = .endOfSource
  · subst hk
    obtain ⟨h1, h2⟩ := next_endOfSource h hs
    have hend : String.Pos.Raw.IsValid text ⟨s.source.length⟩ := by
      rw [hsource, Bytes.length_ofText]
      exact String.Pos.Raw.isValid_rawEndPos
    rw [h1, h2]
    exact ⟨hend, hend⟩
  · have hstep := next_steps h hs
    obtain ⟨first, rest, n, hdrop, hread, hstop⟩ := next_reads h hk
    have hpos := Lexeme.read_pos hread
    rw [hsource] at hdrop
    have hget (i : Nat) : (first :: rest)[i]? = (Bytes.ofText text)[t.tokenStart + i]? := by
      rw [← hdrop, List.getElem?_drop]
    rcases (Lexeme.read_ends hread).2 with ⟨word, hword⟩ | ⟨hfirst, last, hlast, hlt⟩
    · have hlen : t.position - t.tokenStart = n := by omega
      rw [← hdrop, ← hlen] at hword
      exact Bytes.isValid_of_slice (hstep.start_lt hk) (hsource ▸ hstep.position_le_length)
        (Bytes.isValidUTF8_of_text? hword)
    · have hbefore := Bytes.isValid_of_lt ((hget 0).symm.trans rfl) hfirst
      have hbehind := Bytes.isValid_of_lt ((hget (n - 1)).symm.trans hlast) hlt
      rw [show t.tokenStart + (n - 1) + 1 = t.position by omega] at hbehind
      exact ⟨hbefore.1, hbehind.2⟩

/-- The text of a token is what the source holds in its place. -/
theorem ofText_token_text (h : s.next = (.ok kind, t)) (hs : s.position ≤ s.source.length)
    (hsource : s.source = Bytes.ofText text) :
    Bytes.ofText (t.token kind).text =
      ((Bytes.ofText text).drop t.tokenStart).take (t.position - t.tokenStart) := by
  have hstep := next_steps h hs
  obtain ⟨hstart, hstop⟩ := next_isValid h hs hsource
  have hslice := Bytes.isValidUTF8_slice hstart hstop hstep.start_le
  have hrest : t.opening.rest = (Bytes.ofText text).drop t.tokenStart :=
    t.opening.rest_eq.trans
      (congrArg (List.drop t.tokenStart ·) (hstep.source_eq.trans hsource))
  rw [← hrest] at hslice ⊢
  exact Bytes.ofText_text hslice

end Scanner

end SyntaxRecovery
