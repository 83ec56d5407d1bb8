import SyntaxRecovery.Lexical.Number
import SyntaxRecovery.Lexical.Punctuator
import SyntaxRecovery.Lexical.Quoted

/-! The token that starts at a given place. -/
namespace SyntaxRecovery.Lexeme
open Byte

/-- The longest run of word characters: a reserved word or an identifier. -/
def word (bytes : Bytes) : Reading :=
  let length := bytes.run inWord
  match Bytes.text? (bytes.take length) with
  | none => .midCharacter
  | some text => .token ((TokenKind.keyword? text).getD .identifier) length

/-- Reads the token at `first :: rest`, where `first` is no blank and opens no comment. -/
def read (first : UInt8) (rest : Bytes) : Reading :=
  if first = of '"' then Quoted.read Quoted.doubleQuote rest
  else if first = of '\'' then Quoted.read Quoted.singleQuote rest
  else if isDigit first then Number.read (first :: rest)
  else if startsWord first then word (first :: rest)
  else
    match Punctuator.read? (first :: rest) with
    | some (kind, length) => .token kind length
    | none => .failed (.unexpectedCharacter (Bytes.firstChar (first :: rest))) 0 0

theorem word_cases {bytes : Bytes} {reading : Reading} (h : word bytes = reading) :
    (Bytes.text? (bytes.take (bytes.run inWord)) = none ∧ reading = .midCharacter) ∨
      ∃ text, Bytes.text? (bytes.take (bytes.run inWord)) = some text ∧
        reading = .token ((TokenKind.keyword? text).getD .identifier) (bytes.run inWord) := by
  unfold word at h
  dsimp only at h
  split at h
  · next htext => exact .inl ⟨htext, h.symm⟩
  · next text htext => exact .inr ⟨text, htext, h.symm⟩

/-- How a reading comes about, going by the first byte. -/
inductive Dispatch (first : UInt8) (rest : Bytes) : Reading → Prop
  | quoted {quote : Quoted.Quote} {reading : Reading}
    (hquote : quote = Quoted.doubleQuote ∨ quote = Quoted.singleQuote) (hmark : first = quote.mark)
    (hread : Quoted.read quote rest = reading) : Dispatch first rest reading
  | number {reading : Reading} (hmark : first ≠ of '"' ∧ first ≠ of '\'')
    (hdigit : isDigit first = true) (hread : Number.read (first :: rest) = reading) :
    Dispatch first rest reading
  | word {reading : Reading} (hmark : first ≠ of '"' ∧ first ≠ of '\'')
    (hdigit : ¬ isDigit first = true) (hstart : startsWord first = true)
    (hread : word (first :: rest) = reading) : Dispatch first rest reading
  | punctuator {kind : TokenKind} {length : Nat} (hmark : first ≠ of '"' ∧ first ≠ of '\'')
    (hdigit : ¬ isDigit first = true) (hstart : ¬ startsWord first = true)
    (hread : Punctuator.read? (first :: rest) = some (kind, length)) :
    Dispatch first rest (.token kind length)
  | unexpected (hmark : first ≠ of '"' ∧ first ≠ of '\'') (hdigit : ¬ isDigit first = true)
    (hstart : ¬ startsWord first = true) (hread : Punctuator.read? (first :: rest) = none) :
    Dispatch first rest (.failed (.unexpectedCharacter (Bytes.firstChar (first :: rest))) 0 0)

theorem read_eq_iff {first : UInt8} {rest : Bytes} {reading : Reading} :
    read first rest = reading ↔ Dispatch first rest reading := by
  constructor
  · rintro rfl
    unfold read
    split
    · next h => exact .quoted (.inl rfl) h rfl
    split
    · next h => exact .quoted (.inr rfl) h rfl
    next hdouble hsingle =>
    split
    · next hd => exact .number ⟨hdouble, hsingle⟩ hd rfl
    split
    · next hd hw => exact .word ⟨hdouble, hsingle⟩ hd hw rfl
    · next hd hw =>
      split
      · next h => exact .punctuator ⟨hdouble, hsingle⟩ hd hw h
      · next h => exact .unexpected ⟨hdouble, hsingle⟩ hd hw h
  · intro h
    unfold read
    cases h with
    | quoted hquote hmark hread =>
      subst hmark hread
      rcases hquote with rfl | rfl
      · exact if_pos rfl
      · exact (if_neg (by decide)).trans (if_pos rfl)
    | number hmark hdigit hread => rw [if_neg hmark.1, if_neg hmark.2, if_pos hdigit, hread]
    | word hmark hdigit hstart hread =>
      rw [if_neg hmark.1, if_neg hmark.2, if_neg hdigit, if_pos hstart, hread]
    | punctuator hmark hdigit hstart hread =>
      rw [if_neg hmark.1, if_neg hmark.2, if_neg hdigit, if_neg hstart, hread]
    | unexpected hmark hdigit hstart hread =>
      rw [if_neg hmark.1, if_neg hmark.2, if_neg hdigit, if_neg hstart, hread]

theorem read_pos {first : UInt8} {rest : Bytes} {kind : TokenKind} {n : Nat}
    (h : read first rest = .token kind n) : 0 < n := by
  cases read_eq_iff.mp h with
  | quoted _ _ hread => exact Nat.lt_of_le_of_lt (Nat.zero_le _) (Quoted.body_lt hread)
  | number _ hdigit hread => exact Number.read_pos (by simpa) hread
  | word _ _ hstart hread =>
    have hp : 0 < Bytes.run Byte.inWord (first :: rest) := Bytes.run_pos (by simp [inWord, hstart])
    obtain ⟨-, hnone⟩ | ⟨text, -, hsome⟩ := word_cases hread
    · cases hnone
    · cases hsome
      exact hp
  | punctuator _ _ _ hread => exact Punctuator.read?_pos hread

end SyntaxRecovery.Lexeme
