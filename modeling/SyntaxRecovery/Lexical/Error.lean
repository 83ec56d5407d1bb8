/-! Failures of the scanner. -/
namespace SyntaxRecovery

/-- Why the text at some place is no token. -/
inductive LexicalFault where
  | unterminatedString
  | unterminatedCharacter
  | unterminatedComment
  | invalidEscape (escape : Char)
  | malformedNumber (text : String)
  | unexpectedCharacter (found : Char)
  deriving DecidableEq, Repr

def LexicalFault.description : LexicalFault → String
  | .unterminatedString => "unterminated string literal"
  | .unterminatedCharacter => "unterminated character literal"
  | .unterminatedComment => "unterminated block comment"
  | .invalidEscape escape => s!"invalid escape sequence '\\{escape}'"
  | .malformedNumber text => s!"malformed number literal '{text}'"
  | .unexpectedCharacter found => s!"unexpected character '{found}'"

/-- A fault and the offset where the offending construct starts. -/
structure LexicalError where
  fault : LexicalFault
  offset : Nat
  deriving DecidableEq, Repr

def LexicalError.message (error : LexicalError) : String :=
  s!"{error.fault.description} at offset {error.offset}"

end SyntaxRecovery
