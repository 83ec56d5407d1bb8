import SyntaxRecovery.Proofs.Lexical.Boundaries
import SyntaxRecovery.Proofs.Lexical.Gaps

/-! Gaps and readings stop beside a byte of an ASCII character, or at the end. No character is cut
apart there. -/
namespace SyntaxRecovery

namespace Bytes
variable {text : String} {bytes : Bytes} {i m : Nat}

/-- The bytes end at `m`, or a byte below 128 stands there or before. -/
def IsCut (bytes : Bytes) (m : Nat) : Prop :=
  (∀ b, bytes[m]? = some b → b < 128) ∨ ∃ k b, m = k + 1 ∧ bytes[k]? = some b ∧ b < 128

theorem IsCut.append_left (h : IsCut bytes m) (front : Bytes) :
    IsCut (front ++ bytes) (front.length + m) := by
  have hget (k : Nat) : (front ++ bytes)[front.length + k]? = bytes[k]? := by
    rw [List.getElem?_append_right (Nat.le_add_right _ _), Nat.add_sub_cancel_left]
  rcases h with h | ⟨k, b, rfl, hb, hlt⟩
  · refine .inl ?_
    rw [hget]
    exact h
  · exact .inr ⟨front.length + k, b, by omega, (hget k).trans hb, hlt⟩

theorem IsCut.cons (h : IsCut bytes m) (b : UInt8) : IsCut (b :: bytes) (m + 1) := by
  rw [Nat.add_comm]
  exact h.append_left [b]

theorem IsCut.of_drop {k : Nat} (h : IsCut (bytes.drop k) m) : IsCut bytes (k + m) := by
  simp only [IsCut, List.getElem?_drop] at h
  rcases h with h | ⟨j, b, rfl, hb, hlt⟩
  · exact .inl h
  · exact .inr ⟨k + j, b, by omega, hb, hlt⟩

theorem IsAscii.isCut (h : IsAscii (bytes.take m)) (hm : 0 < m) : IsCut bytes m := by
  obtain ⟨k, rfl⟩ := Nat.exists_eq_add_one.mpr hm
  by_cases hk : k < bytes.length
  · refine .inr ⟨k, bytes[k], rfl, List.getElem?_eq_getElem hk, h _ ?_⟩
    exact List.mem_take_iff_getElem.mpr ⟨k, by omega, rfl⟩
  · refine .inl fun b hb => ?_
    rw [List.getElem?_eq_none (by omega)] at hb
    cases hb

theorem IsAscii.isValidUTF8 (h : IsAscii bytes) : bytes.toByteArray.IsValidUTF8 := by
  induction bytes with
  | nil => exact ByteArray.isValidUTF8_empty
  | cons b bytes ih =>
    obtain ⟨hb, hrest⟩ := List.forall_mem_cons.mp h
    rw [← List.singleton_append, List.toByteArray_append]
    exact (isValidUTF8_of_lt hb).append (ih hrest)

/-- No character goes on across a cut. -/
theorem IsCut.isValid (h : IsCut ((ofText text).drop i) m) (hm : i + m ≤ text.utf8ByteSize) :
    String.Pos.Raw.IsValid text ⟨i + m⟩ := by
  simp only [IsCut, List.getElem?_drop] at h
  rcases h with h | ⟨k, b, rfl, hb, hlt⟩
  · rcases Nat.lt_or_eq_of_le hm with hlt | heq
    · rw [← length_ofText] at hlt
      have hget := List.getElem?_eq_getElem hlt
      exact (isValid_of_lt hget (h _ hget)).1
    · rw [heq]
      exact String.Pos.Raw.isValid_rawEndPos
  · exact (isValid_of_lt hb hlt).2

end Bytes

namespace Trivia
open Byte

theorem lt_of_isBlank {b : UInt8} (h : isBlank b = true) : b < 128 := by
  simp only [isBlank, Bool.or_eq_true, beq_iff_eq] at h
  rcases h with (((rfl | rfl) | rfl) | rfl) | rfl <;> decide

theorem skip_of_le {b : UInt8} (h : 128 ≤ b) (length : Nat) (rest : Bytes) :
    skip length (b :: rest) = .ok length := by
  have hblank : ¬ isBlank b = true := fun hb => UInt8.not_le.mpr (lt_of_isBlank hb) h
  have hslash : b ≠ of '/' := by
    rintro rfl
    exact absurd h (by decide)
  cases rest with
  | nil => simp [skip, hblank]
  | cons c rest => simp [skip, hblank, hslash]

theorem Gap.isCut {after gap : Bytes} (h : Gap after gap) :
    gap = [] ∨ Bytes.IsCut (gap ++ after) gap.length := by
  induction h with
  | nil => exact .inl rfl
  | @blank b gap hb _ ih =>
    right
    rcases ih with rfl | ih
    · exact .inr ⟨0, b, rfl, rfl, lt_of_isBlank hb⟩
    · exact ih.cons b
  | @lineComment body gap _ hstop _ ih =>
    right
    rw [List.append_assoc, List.length_append]
    refine Bytes.IsCut.append_left ?_ _
    rcases ih with rfl | ih
    · refine .inl fun b hb => ?_
      rw [hstop b (by simpa [List.head?_eq_getElem?] using hb)]
      decide
    · exact ih
  | @blockComment body gap _ _ ih =>
    right
    have hclose : Bytes.IsCut (closeMark ++ (gap ++ after)) (closeMark.length + gap.length) := by
      rcases ih with rfl | ih
      · exact .inr ⟨1, of '/', rfl, rfl, by decide⟩
      · exact ih.append_left _
    simpa only [List.append_assoc, List.length_append, Nat.add_assoc] using
      hclose.append_left (openMark ++ body)

end Trivia

namespace Quoted

theorem lt_of_isSimpleEscape {b : UInt8} (h : isSimpleEscape b = true) : b < 128 := by
  have hall : ∀ b ∈ ['n', 't', 'r', 'b', 'f', 's', '0', '"', '\'', '\\'].map Byte.of, b < 128 := by
    decide +kernel
  exact hall b (of_decide_eq_true h)

theorem isAscii_escape (bytes : Bytes) : Bytes.IsAscii (bytes.take (escape bytes).extent) := by
  unfold escape
  split
  · simp [Bytes.IsAscii]
  · next b rest =>
    split
    · next hb => simpa [Escape.extent, Bytes.IsAscii] using lt_of_isSimpleEscape hb
    split
    · have hmarks := Bytes.isAscii_take_run (p := (· == Byte.of 'u'))
        (fun b hb => by rw [beq_iff_eq.mp hb]; decide) (b :: rest)
      have hdigits := Bytes.isAscii_take_run (p := Byte.isHexDigit) (fun _ => Byte.lt_of_isHexDigit)
        (((b :: rest).drop (Bytes.run (· == Byte.of 'u') (b :: rest))).take 4)
      have hfour := Bytes.run_le Byte.isHexDigit
        (((b :: rest).drop (Bytes.run (· == Byte.of 'u') (b :: rest))).take 4)
      rw [List.length_take] at hfour
      rw [List.take_take, Nat.min_eq_left (by omega)] at hdigits
      have hboth := Bytes.isAscii_take_add hmarks hdigits
      dsimp only
      split
      · next h =>
        rw [h] at hboth
        exact hboth
      · exact hboth
    · simp [Escape.extent, Bytes.IsAscii]

theorem body_fault {quote : Quote} {length offset n : Nat} {bytes : Bytes} {fault : LexicalFault}
    (h : body quote length bytes = .failed fault offset n) :
    fault = quote.unterminated ∨ ∃ c, fault = .invalidEscape c := by
  fun_induction body quote length bytes with
  | case1 | case2 | case5 =>
    cases h
    exact .inl rfl
  | case3 _ _ _ _ _ ih | case7 _ _ _ _ _ _ ih => exact ih h
  | case4 =>
    cases h
    exact .inr ⟨_, rfl⟩
  | case6 => cases h

/-- A literal without an end, or with an escape that is none, is given up at a cut. -/
theorem body_failed {quote : Quote} {length offset n : Nat} {bytes : Bytes} {fault : LexicalFault}
    (h : body quote length bytes = .failed fault offset n) :
    ∃ m, n = length + m ∧ Bytes.IsCut bytes m := by
  fun_induction body quote length bytes with
  | case1 length =>
    cases h
    exact ⟨0, rfl, .inl (by simp)⟩
  | case2 length rest =>
    cases h
    exact ⟨0, rfl, .inl (by simp; decide)⟩
  | case3 length rest k _ _ ih =>
    obtain ⟨m, rfl, hm⟩ := ih h
    exact ⟨k + m + 1, by omega, hm.of_drop.cons _⟩
  | case4 length rest c k he =>
    cases h
    have hescape := isAscii_escape rest
    rw [he] at hescape
    have htake : Bytes.IsAscii ((Byte.of '\\' :: rest).take (k + 1)) := hescape.cons (by decide)
    exact ⟨k + 1, by omega, htake.isCut (Nat.succ_pos k)⟩
  | case5 =>
    cases h
    exact ⟨1, rfl, .inr ⟨0, _, rfl, rfl, by decide⟩⟩
  | case6 => cases h
  | case7 length b rest _ _ _ ih =>
    obtain ⟨m, rfl, hm⟩ := ih h
    exact ⟨m + 1, by omega, hm.cons b⟩

theorem body_ne_midCharacter (quote : Quote) (length : Nat) (bytes : Bytes) :
    body quote length bytes ≠ .midCharacter := by
  fun_induction body quote length bytes <;> simp_all

end Quoted

namespace Number
open Byte

theorem lt_of_isAlphanumeric {b : UInt8} (h : isAlphanumeric b = true) : b < 128 := by
  simp only [isAlphanumeric, isLetter, Bool.or_eq_true, Bool.and_eq_true, decide_eq_true_eq] at h
  rcases h with (h | h) | h
  · exact UInt8.lt_of_le_of_lt h.2 (by decide)
  · exact UInt8.lt_of_le_of_lt h.2 (by decide)
  · exact lt_of_isDigit h

/-- A token, or a malformed number and the ASCII text that it quotes. -/
def Outcome (bytes : Bytes) (reading : Reading) : Prop := (∃ kind n, reading = .token kind n) ∨
  ∃ n, reading = malformed bytes n ∧ Bytes.IsAscii (bytes.take n)

theorem close_outcome (kind : TokenKind) {length : Nat} {clashes : UInt8 → Bool} {bytes : Bytes}
    (hlt : ∀ b, clashes b = true → b < 128) (hascii : Bytes.IsAscii (bytes.take length)) :
    Outcome bytes (close kind length clashes bytes) := by
  unfold close
  split
  · next h =>
    obtain ⟨b, hb, hclash⟩ := (Option.any_eq_true _ _).mp h
    exact .inr ⟨_, rfl, Bytes.isAscii_take_add hascii (Bytes.isAscii_take_head hb (hlt b hclash))⟩
  · exact .inl ⟨_, _, rfl⟩

theorem hexadecimal_outcome {bytes : Bytes} (hhead : Bytes.IsAscii (bytes.take 2)) :
    Outcome bytes (hexadecimal bytes) := by
  have hdigits := Bytes.isAscii_take_add hhead
    (Bytes.isAscii_take_run lt_of_inHexDigits (bytes.drop 2))
  unfold hexadecimal
  dsimp only
  split
  · exact .inr ⟨2, rfl, hhead⟩
  split
  · next hsuffix =>
    obtain ⟨b, hb, hl⟩ := (Option.any_eq_true _ _).mp hsuffix
    simp only [Bool.or_eq_true, beq_iff_eq] at hl
    have hlt : b < 128 := by
      rcases hl with rfl | rfl <;> decide
    exact close_outcome _ (fun _ => lt_of_isAlphanumeric)
      (Bytes.isAscii_take_add hdigits (Bytes.isAscii_take_head hb hlt))
  · exact close_outcome _ (fun _ => lt_of_isAlphanumeric) hdigits

theorem decimal_outcome (bytes : Bytes) : Outcome bytes (decimal bytes) := by
  have hclash (b : UInt8) (h : decimal.inWordOrDigits b = true) : b < 128 := by
    simp only [decimal.inWordOrDigits, Bool.or_eq_true, beq_iff_eq] at h
    rcases h with h | rfl
    · exact lt_of_isAlphanumeric h
    · decide
  have hfraction := Bytes.isAscii_take_add (Bytes.isAscii_take_run lt_of_inDigits bytes)
    (isAscii_fraction (bytes.drop (bytes.run inDigits)))
  unfold decimal
  dsimp only
  split
  · next he => exact .inr ⟨_, rfl, Bytes.isAscii_take_add hfraction (isAscii_exponent_error he)⟩
  · next he =>
    have hexponent := Bytes.isAscii_take_add hfraction (isAscii_exponent he)
    split
    · next hs =>
      obtain ⟨b, hb, hkind⟩ := Option.bind_eq_some_iff.mp hs
      exact close_outcome _ hclash
        (Bytes.isAscii_take_add hexponent (Bytes.isAscii_take_head hb (suffixKind_lt hkind).1))
    · exact close_outcome _ hclash hexponent

theorem read_outcome (bytes : Bytes) : Outcome bytes (read bytes) := by
  unfold read
  split
  · split
    · next hx =>
      obtain ⟨rfl, hx⟩ := hx
      refine hexadecimal_outcome (.cons (by decide) (.cons ?_ (by simp [Bytes.IsAscii])))
      rcases hx with rfl | rfl <;> decide
    · exact decimal_outcome _
  · exact decimal_outcome _

end Number

namespace Lexeme
open Byte

theorem startsWord_of_le {b : UInt8} (h : 128 ≤ b) : startsWord b = true := by
  simp [startsWord, h]

/-- Behind a word the text goes on with an ASCII character. -/
theorem isCut_word (bytes : Bytes) : bytes.IsCut (bytes.run inWord) := by
  obtain ⟨body, after, rfl, hrun, -, hstop⟩ := Bytes.run_split inWord bytes
  rw [hrun]
  refine .inl fun b hb => ?_
  rw [List.getElem?_append_right (Nat.le_refl _), Nat.sub_self, ← List.head?_eq_getElem?] at hb
  refine UInt8.not_le.mp fun hle => ?_
  have hnot := hstop b hb
  rw [inWord, startsWord_of_le hle] at hnot
  cases hnot

/-- A reading that fails ends at a cut. -/
theorem read_failed {first : UInt8} {rest : Bytes} {fault : LexicalFault} {offset n : Nat}
    (h : read first rest = .failed fault offset n) : Bytes.IsCut (first :: rest) n := by
  cases read_eq_iff.mp h with
  | quoted _ _ hread =>
    obtain ⟨m, rfl, hm⟩ := Quoted.body_failed hread
    rw [Nat.add_comm]
    exact hm.cons first
  | number _ hdigit hread =>
    rcases Number.read_outcome (first :: rest) with ⟨kind, m, htoken⟩ | ⟨m, hm, hascii⟩
    · cases htoken.symm.trans hread
    · cases hm.symm.trans hread
      cases n with
      | zero => exact .inl fun b hb => by cases hb; exact lt_of_isDigit hdigit
      | succ n => exact hascii.isCut (Nat.succ_pos n)
  | word _ _ _ hread => obtain ⟨-, hread⟩ | ⟨text, -, hread⟩ := word_cases hread <;> cases hread
  | unexpected _ _ hstart =>
    refine .inl fun b hb => ?_
    cases hb
    exact UInt8.not_le.mp fun hle => hstart (startsWord_of_le hle)

/-- A malformed number is quoted as it stands. -/
theorem read_malformedNumber {first : UInt8} {rest : Bytes} {found : String} {offset n : Nat}
    (h : read first rest = .failed (.malformedNumber found) offset n) :
    offset = 0 ∧ Bytes.ofText found = (first :: rest).take n := by
  cases read_eq_iff.mp h with
  | quoted hquote _ hread =>
    rcases Quoted.body_fault hread with hfault | ⟨c, hfault⟩
    · rcases hquote with rfl | rfl <;> cases hfault
    · cases hfault
  | number _ _ hread =>
    rcases Number.read_outcome (first :: rest) with ⟨kind, m, htoken⟩ | ⟨m, hm, hascii⟩
    · cases htoken.symm.trans hread
    · cases hm.symm.trans hread
      exact ⟨rfl, Bytes.ofText_text hascii.isValidUTF8⟩
  | word _ _ _ hread => obtain ⟨-, hread⟩ | ⟨text, -, hread⟩ := word_cases hread <;> cases hread

theorem read_midCharacter {first : UInt8} {rest : Bytes} (h : read first rest = .midCharacter) :
    Bytes.text? ((first :: rest).take (Bytes.run inWord (first :: rest))) = none := by
  cases read_eq_iff.mp h with
  | quoted _ _ hread => exact absurd hread (Quoted.body_ne_midCharacter _ _ _)
  | number _ _ hread =>
    rcases Number.read_outcome (first :: rest) with ⟨kind, m, htoken⟩ | ⟨m, hm, -⟩
    · cases htoken.symm.trans hread
    · cases hm.symm.trans hread
  | word _ _ _ hread =>
    obtain ⟨htext, -⟩ | ⟨text, -, hread⟩ := word_cases hread
    · exact htext
    · cases hread

theorem read_of_le {first : UInt8} (h : 128 ≤ first) (rest : Bytes) :
    read first rest = word (first :: rest) := by
  have hne (c : UInt8) (hc : c < 128) : first ≠ c := by
    rintro rfl
    exact UInt8.not_le.mpr hc h
  have hdigit : ¬ isDigit first = true := fun hd => UInt8.not_le.mpr (lt_of_isDigit hd) h
  rw [read, if_neg (hne _ (by decide)), if_neg (hne _ (by decide)), if_neg hdigit,
    if_pos (startsWord_of_le h)]

end Lexeme

end SyntaxRecovery
