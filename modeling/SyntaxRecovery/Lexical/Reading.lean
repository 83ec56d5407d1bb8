import SyntaxRecovery.Bytes
import SyntaxRecovery.Lexical.Error
import SyntaxRecovery.Token

/-! What the scanner makes of the bytes where a token starts. -/
namespace SyntaxRecovery

/-- Lengths and offsets count from where the reading starts. -/
inductive Reading where
  /-- A token of `length` bytes. -/
  | token (kind : TokenKind) (length : Nat)
  /-- A fault at `offset`, noticed after `length` bytes. -/
  | failed (fault : LexicalFault) (offset length : Nat)
  /-- A word whose bytes are no text, as it starts inside a character. -/
  | midCharacter
  deriving DecidableEq, Repr

end SyntaxRecovery
