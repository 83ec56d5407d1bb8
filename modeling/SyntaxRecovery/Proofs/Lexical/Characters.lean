import SyntaxRecovery.Proofs.Lexical.Cuts

/-! A scanner that starts where a character does stops where one does, also when it fails. Inside a
character it comes to stand only when it is moved there. -/
namespace SyntaxRecovery

/-- Behind the first byte of some character of the text and before its last. -/
def InsideCharacter (text : String) (i : Nat) : Prop := ∃ before c after,
  text = before ++ String.singleton c ++ after ∧
    before.utf8ByteSize < i ∧ i < before.utf8ByteSize + c.utf8Size

/-- Every other place is one where a character starts, or the end. -/
theorem not_insideCharacter_iff {text : String} {i : Nat} (hi : i ≤ text.utf8ByteSize) :
    ¬ InsideCharacter text i ↔ String.Pos.Raw.IsValid text ⟨i⟩ := by
  constructor
  · intro h
    induction text using String.push_induction with
    | empty =>
      obtain rfl : i = 0 := Nat.le_zero.mp hi
      exact String.Pos.Raw.isValid_zero
    | push text c ih =>
      rw [String.utf8ByteSize_push] at hi
      rw [String.Pos.Raw.isValid_push]
      by_cases hle : i ≤ text.utf8ByteSize
      · refine .inl (ih hle ?_)
        rintro ⟨before, d, after, rfl, hinside⟩
        refine h ⟨before, d, after.push c, ?_, hinside⟩
        simp only [← String.append_singleton, String.append_assoc]
      · refine .inr (String.Pos.Raw.ext ?_)
        by_contra hne
        refine h ⟨text, c, "", by rw [String.append_empty, String.append_singleton], by omega, ?_⟩
        change i ≠ text.utf8ByteSize + c.utf8Size at hne
        omega
  · rintro h ⟨before, c, after, rfl, hbefore, hafter⟩
    rw [String.Pos.Raw.isValid_append, String.Pos.Raw.isValid_append,
      String.Pos.Raw.isValid_singleton] at h
    rcases h with (h | ⟨-, h | h⟩) | ⟨h, -⟩
    · exact absurd h.le_utf8ByteSize (Nat.not_le_of_lt hbefore)
    · have hzero : i - before.utf8ByteSize = 0 := congrArg String.Pos.Raw.byteIdx h
      omega
    · change i - before.utf8ByteSize = c.utf8Size at h
      omega
    · change (before ++ String.singleton c).utf8ByteSize ≤ i at h
      rw [String.utf8ByteSize_append, String.utf8ByteSize_singleton] at h
      omega

theorem InsideCharacter.lt {text : String} {i : Nat} (h : InsideCharacter text i) :
    i < text.utf8ByteSize := by
  obtain ⟨before, c, after, rfl, -, hi⟩ := h
  rw [String.utf8ByteSize_append, String.utf8ByteSize_append, String.utf8ByteSize_singleton]
  omega

namespace Scanner
variable {s t : Scanner} {text : String}

/-- Blanks and comments end where a character starts. -/
theorem isValid_skip {i n : Nat} (h : Trivia.skip 0 ((Bytes.ofText text).drop i) = .ok n)
    (hi : String.Pos.Raw.IsValid text ⟨i⟩) : String.Pos.Raw.IsValid text ⟨i + n⟩ := by
  obtain ⟨-, hle⟩ := Trivia.skip_bounds h
  obtain ⟨gap, after, heq, hn, hgap, -⟩ := Trivia.skip_sound h
  rw [Nat.zero_add] at hn
  have hsize : i ≤ text.utf8ByteSize := hi.le_utf8ByteSize
  rw [List.length_drop, Bytes.length_ofText] at hle
  rcases hgap.isCut with rfl | hcut
  · rw [hn]
    exact hi
  · rw [← heq, ← hn] at hcut
    exact hcut.isValid (by omega)

/-- A word that starts with a character is text. -/
theorem text?_word_ne {i : Nat} (hi : String.Pos.Raw.IsValid text ⟨i⟩) :
    let bytes : Bytes := (Bytes.ofText text).drop i
    Bytes.text? (bytes.take (bytes.run Byte.inWord)) ≠ none := by
  intro bytes
  have hsize : i ≤ text.utf8ByteSize := hi.le_utf8ByteSize
  have hrun := Bytes.run_le Byte.inWord bytes
  rw [List.length_drop, Bytes.length_ofText] at hrun
  have hend := (Lexeme.isCut_word bytes).isValid (by omega)
  have htext := Bytes.isValidUTF8_slice hi hend (Nat.le_add_right _ _)
  rw [Nat.add_sub_cancel_left] at htext
  unfold Bytes.text? String.fromUTF8?
  rw [dif_pos htext]
  exact Option.some_ne_none _

/-- What looks like a word but starts inside a character is no text. -/
theorem text?_word_eq_none {i : Nat} (hi : ¬ String.Pos.Raw.IsValid text ⟨i⟩) :
    let bytes : Bytes := (Bytes.ofText text).drop i
    0 < bytes.run Byte.inWord → Bytes.text? (bytes.take (bytes.run Byte.inWord)) = none := by
  intro bytes hpos
  have hrun := Bytes.run_le Byte.inWord bytes
  rw [List.length_drop] at hrun
  rw [Option.eq_none_iff_forall_ne_some]
  intro word hword
  have htext := Bytes.isValidUTF8_of_text? hword
  refine hi (Bytes.isValid_of_slice (Nat.lt_add_of_pos_right hpos) (by omega) ?_).1
  rw [Nat.add_sub_cancel_left]
  exact htext

/-- From where a character starts a call does not fail inside one, and stops where one starts. -/
theorem next_of_isValid {result : Except ScanFailure TokenKind} (h : s.next = (result, t))
    (hsource : s.source = Bytes.ofText text) (hs : String.Pos.Raw.IsValid text ⟨s.position⟩) :
    result ≠ .error .midCharacter ∧ String.Pos.Raw.IsValid text ⟨t.position⟩ := by
  have hle : s.position ≤ s.source.length := by
    rw [hsource, Bytes.length_ofText]
    exact hs.le_utf8ByteSize
  cases result with
  | ok kind => exact ⟨by simp, (next_isValid h hle hsource).2⟩
  | error failure =>
    obtain ⟨-, -, hstop⟩ := next_error h hle
    rw [hsource, Bytes.length_ofText] at hstop
    obtain ⟨n, -, rfl, rfl⟩ | ⟨n, first, rest, hskip, hdrop, hread⟩ := next_error_cases h
    · refine ⟨by simp, ?_⟩
      have hend : s.position + s.place.rest.length = text.utf8ByteSize := by
        rw [s.length_rest, hsource, Bytes.length_ofText] at *
        omega
      change String.Pos.Raw.IsValid text ⟨s.position + s.place.rest.length⟩
      rw [hend]
      exact String.Pos.Raw.isValid_rawEndPos
    · rw [place_rest hsource] at hskip hdrop
      have hstart := isValid_skip hskip hs
      rw [List.drop_drop] at hdrop
      rcases hread with ⟨fault, offset, length, hread, rfl, rfl⟩ | ⟨hread, -, -⟩
      · have hcut := Lexeme.read_failed hread
        rw [← hdrop] at hcut
        exact ⟨by simp, hcut.isValid hstop⟩
      · have hword := Lexeme.read_midCharacter hread
        rw [← hdrop] at hword
        exact absurd hword (text?_word_ne hstart)

/-- Inside a character a call fails for that. -/
theorem next_of_insideCharacter (hsource : s.source = Bytes.ofText text)
    (hs : InsideCharacter text s.position) : s.next.1 = .error .midCharacter := by
  have hnot : ¬ String.Pos.Raw.IsValid text ⟨s.position⟩ := fun h =>
    (not_insideCharacter_iff h.le_utf8ByteSize).mpr h hs
  have hlt := hs.lt
  rw [← Bytes.length_ofText] at hlt
  have hget := List.getElem?_eq_getElem hlt
  have hdrop := (place_rest hsource).trans (List.drop_eq_getElem_cons hlt)
  generalize (Bytes.ofText text)[s.position] = first at hget hdrop
  generalize (Bytes.ofText text).drop (s.position + 1) = rest at hdrop
  have hfirst : 128 ≤ first := UInt8.not_lt.mp fun h => hnot (Bytes.isValid_of_lt hget h).1
  have hskip := Trivia.skip_of_le hfirst 0 rest
  have hrun : 0 < Bytes.run Byte.inWord (first :: rest) :=
    Bytes.run_pos (by simp [Byte.inWord, Lexeme.startsWord_of_le hfirst])
  have hword := text?_word_eq_none hnot
  rw [← place_rest hsource, hdrop] at hword
  have hread : Lexeme.read first rest = .midCharacter := by
    rw [Lexeme.read_of_le hfirst, Lexeme.word, hword hrun]
  rw [← hdrop] at hskip
  rw [next_of_read hskip hdrop, hread]

/-- What is asked of a scanner. -/
inductive Call where
  | next
  | seek (offset : Nat)
  deriving DecidableEq, Repr

/-- The scanner after a call, also after one that fails. -/
def perform (s : Scanner) : Call → Scanner
  | .next => s.next.2
  | .seek offset => s.seek offset

def performAll (s : Scanner) (calls : List Call) : Scanner := calls.foldl perform s

/-- No call changes the source, and one for a token goes on in it. -/
theorem next_inSource (hs : s.position ≤ s.source.length) : s.next.2.source = s.source ∧
    s.position ≤ s.next.2.position ∧ s.next.2.position ≤ s.source.length := by
  rcases h : s.next with ⟨failure | kind, t⟩
  · exact next_error h hs
  · have hstep := next_steps h hs
    exact ⟨hstep.source_eq, Nat.le_trans hstep.position_le_start hstep.start_le,
      hstep.position_le_length⟩

theorem perform_inSource (call : Call) (hs : s.position ≤ s.source.length) :
    (s.perform call).source = s.source ∧ (s.perform call).position ≤ s.source.length := by
  cases call with
  | next =>
    obtain ⟨hsource, -, hplace⟩ := next_inSource hs
    exact ⟨hsource, hplace⟩
  | seek offset => exact ⟨rfl, Nat.min_le_right _ _⟩

theorem performAll_inSource (calls : List Call) (hs : s.position ≤ s.source.length) :
    (s.performAll calls).source = s.source ∧ (s.performAll calls).position ≤ s.source.length := by
  induction calls generalizing s with
  | nil => exact ⟨rfl, hs⟩
  | cons call calls ih =>
    obtain ⟨hsource, hplace⟩ := perform_inSource call hs
    obtain ⟨hsource', hplace'⟩ := ih (by rw [hsource]; exact hplace)
    exact ⟨hsource'.trans hsource, hsource ▸ hplace'⟩

/-- A malformed number is reported with what the source holds in its place. -/
theorem next_malformedNumber {found : String} {offset : Nat}
    (h : s.next = (.error (.lexical ⟨.malformedNumber found, offset⟩), t))
    (hsource : s.source = Bytes.ofText text) : Bytes.ofText found =
      ((Bytes.ofText text).drop offset).take (t.position - offset) := by
  obtain ⟨n, -, hfault, -⟩ | ⟨n, first, rest, -, hdrop, hread⟩ := next_error_cases h
  · cases hfault
  · rw [place_rest hsource, List.drop_drop] at hdrop
    rcases hread with ⟨fault, offset, length, hread, hfault, rfl⟩ | ⟨-, hfault, -⟩
    · cases hfault
      obtain ⟨rfl, hfound⟩ := Lexeme.read_malformedNumber hread
      rw [hfound, ← hdrop, Nat.add_zero]
      simp only [pass, position, Cursor.advance, Nat.add_sub_cancel_left]
    · cases hfault

/-- Whatever calls came before, one fails inside a character exactly when it starts inside one. From
anywhere else it goes on to a place where a character starts, and past a token that it finds. Nor
does it cut a character apart for the text of a malformed number. -/
theorem next_between_characters (text : String) (calls : List Call) :
    let s := (ofText text).performAll calls
    (s.next.1 = .error .midCharacter ↔ InsideCharacter text s.position) ∧
      (¬ InsideCharacter text s.position →
        String.Pos.Raw.IsValid text ⟨s.next.2.position⟩ ∧ s.position ≤ s.next.2.position ∧
          s.next.2.position ≤ text.utf8ByteSize ∧
          ∀ kind, s.next.1 = .ok kind → kind ≠ .endOfSource → s.position < s.next.2.position) ∧
      ∀ found offset, s.next.1 = .error (.lexical ⟨.malformedNumber found, offset⟩) →
        Bytes.ofText found =
          ((Bytes.ofText text).drop offset).take (s.next.2.position - offset) := by
  intro s
  obtain ⟨hsource, hplace⟩ : s.source = Bytes.ofText text ∧
      s.position ≤ (Bytes.ofText text).length :=
    performAll_inSource (s := ofText text) calls (Nat.zero_le _)
  rw [← hsource] at hplace
  obtain ⟨-, hforward, hend⟩ := next_inSource hplace
  have hvalid : ¬ InsideCharacter text s.position ↔ String.Pos.Raw.IsValid text ⟨s.position⟩ := by
    rw [hsource, Bytes.length_ofText] at hplace
    exact not_insideCharacter_iff hplace
  refine ⟨⟨fun hfail => ?_, next_of_insideCharacter hsource⟩, fun hout => ?_,
    fun found offset hfail => next_malformedNumber (Prod.ext hfail rfl) hsource⟩
  · by_contra hout
    exact (next_of_isValid rfl hsource (hvalid.mp hout)).1 hfail
  · refine ⟨(next_of_isValid rfl hsource (hvalid.mp hout)).2, hforward, ?_,
      fun kind hkind hne => ?_⟩
    · rw [← Bytes.length_ofText, ← hsource]
      exact hend
    · have hstep := next_steps (Prod.ext hkind rfl : s.next = (.ok kind, s.next.2)) hplace
      exact Nat.lt_of_le_of_lt hstep.position_le_start (hstep.start_lt hne)

theorem next_between_characters_afterSeek :
    InsideCharacter "aé1" 2 ∧ ((ofText "aé1").performAll [.seek 2]).next.1 = .error .midCharacter ∧
      ((ofText "aé1").performAll [.seek 1, .next]).position = 4 := by
  have hinside : InsideCharacter "aé1" 2 := ⟨"a", 'é', "1", by decide, by decide, by decide⟩
  exact ⟨hinside, (next_between_characters "aé1" [.seek 2]).1.mpr hinside, by decide +kernel⟩

end Scanner
end SyntaxRecovery
