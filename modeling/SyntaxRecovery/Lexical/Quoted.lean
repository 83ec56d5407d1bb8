import SyntaxRecovery.Lexical.Reading

/-! String and character literals. -/
namespace SyntaxRecovery.Quoted
open Byte

/-- What follows a backslash: the rest of an escape and its length, a fault that is noticed after
`length` bytes, or nothing. -/
inductive Escape where
  | valid (length : Nat)
  | invalid (escape : Char) (length : Nat)
  | cut
  deriving DecidableEq, Repr

def isSimpleEscape (b : UInt8) : Bool :=
  b ∈ ['n', 't', 'r', 'b', 'f', 's', '0', '"', '\'', '\\'].map of

/-- Any number of `u` may stand before the four digits of a Unicode escape. -/
def escape (bytes : Bytes) : Escape :=
  match bytes with
  | [] => .cut
  | b :: _ =>
    if isSimpleEscape b then .valid 1
    else if b = of 'u' then
      let marks := bytes.run (· == of 'u')
      let digits := Bytes.run isHexDigit ((bytes.drop marks).take 4)
      if digits = 4 then .valid (marks + 4) else .invalid 'u' (marks + digits)
    else .invalid bytes.firstChar 0

structure Quote where
  mark : UInt8
  kind : TokenKind
  unterminated : LexicalFault

def doubleQuote : Quote := ⟨of '"', .stringLiteral, .unterminatedString⟩

def singleQuote : Quote := ⟨of '\'', .characterLiteral, .unterminatedCharacter⟩

/-- Reads on after `length` bytes of a literal, its opening quote among them. -/
def body (quote : Quote) (length : Nat) (bytes : Bytes) : Reading :=
  match bytes with
  | [] => .failed quote.unterminated 0 length
  | b :: rest =>
    if b = of '\n' then .failed quote.unterminated 0 length
    else if b = of '\\' then
      match escape rest with
      | .valid n => body quote (length + 1 + n) (rest.drop n)
      | .invalid c n => .failed (.invalidEscape c) length (length + 1 + n)
      | .cut => .failed quote.unterminated 0 (length + 1)
    else if b = quote.mark then .token quote.kind (length + 1)
    else body quote (length + 1) rest
termination_by bytes.length
decreasing_by
  all_goals
    simp only [List.length_cons, List.length_drop]
    omega

/-- Reads the literal whose opening quote stands before `bytes`. -/
def read (quote : Quote) (bytes : Bytes) : Reading := body quote 1 bytes

theorem body_lt {quote : Quote} {length : Nat} {bytes : Bytes} {kind : TokenKind} {n : Nat}
    (h : body quote length bytes = .token kind n) : length < n := by
  fun_induction body quote length bytes <;> simp_all <;> omega

end SyntaxRecovery.Quoted
