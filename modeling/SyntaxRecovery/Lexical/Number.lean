import SyntaxRecovery.Lexical.Reading

/-! Number literals. -/
namespace SyntaxRecovery.Number
open Byte

def inDigits (b : UInt8) : Bool := isDigit b || b == of '_'

def inHexDigits (b : UInt8) : Bool := isHexDigit b || b == of '_'

def malformed (bytes : Bytes) (length : Nat) : Reading :=
  .failed (.malformedNumber (Bytes.text (bytes.take length))) 0 length

/-- The literal of the given length, unless a byte of class `clashes` follows it. -/
def close (kind : TokenKind) (length : Nat) (clashes : UInt8 → Bool) (bytes : Bytes) : Reading :=
  if (bytes.drop length).head?.any clashes then malformed bytes (length + 1)
  else .token kind length

/-- A literal that opens with `0x`. -/
def hexadecimal (bytes : Bytes) : Reading :=
  let digits := Bytes.run inHexDigits (bytes.drop 2)
  let length := 2 + digits
  if digits = 0 then malformed bytes 2
  else if (bytes.drop length).head?.any fun b => b == of 'l' || b == of 'L' then
    close .longLiteral (length + 1) isAlphanumeric bytes
  else close .integerLiteral length isAlphanumeric bytes

/-- The length of a fraction. A point counts only before a digit. -/
def fractionLength : Bytes → Nat
  | point :: digit :: rest =>
    if point = of '.' ∧ isDigit digit then 1 + Bytes.run inDigits (digit :: rest) else 0
  | _ => 0

/-- The length of an exponent; a failure tells the length of one without digits. -/
def exponentLength : Bytes → Except Nat Nat
  | [] => .ok 0
  | mark :: rest =>
    if mark = of 'e' ∨ mark = of 'E' then
      let sign := if rest.head?.any fun b => b == of '+' || b == of '-' then 1 else 0
      let digits := Bytes.run inDigits (rest.drop sign)
      if digits = 0 then .error (1 + sign) else .ok (1 + sign + digits)
    else .ok 0

/-- The kind that a suffix gives a decimal literal, none where `b` is no suffix. -/
def suffixKind (fractional : Bool) (b : UInt8) : Option TokenKind :=
  if (b = of 'l' ∨ b = of 'L') ∧ !fractional then some .longLiteral
  else if b = of 'f' ∨ b = of 'F' then some .floatingPointLiteral
  else if b = of 'd' ∨ b = of 'D' then some .doubleLiteral
  else none

def decimal (bytes : Bytes) : Reading :=
  let whole := bytes.run inDigits
  let fraction := fractionLength (bytes.drop whole)
  match exponentLength (bytes.drop (whole + fraction)) with
  | .error exponent => malformed bytes (whole + fraction + exponent)
  | .ok exponent =>
    let length := whole + fraction + exponent
    let fractional : Bool := 0 < fraction + exponent
    match (bytes.drop length).head?.bind (suffixKind fractional) with
    | some kind => close kind (length + 1) inWordOrDigits bytes
    | none =>
      close (if fractional then .doubleLiteral else .integerLiteral) length inWordOrDigits bytes
where
  inWordOrDigits (b : UInt8) : Bool := isAlphanumeric b || b == of '_'

/-- Reads a number where a digit stands. -/
def read (bytes : Bytes) : Reading :=
  match bytes with
  | zero :: x :: _ =>
    if zero = of '0' ∧ (x = of 'x' ∨ x = of 'X') then hexadecimal bytes else decimal bytes
  | _ => decimal bytes

theorem close_pos {kind k : TokenKind} {length n : Nat} {clashes : UInt8 → Bool}
    {bytes : Bytes} (h : close kind length clashes bytes = .token k n) (hl : 0 < length) :
    0 < n := by
  unfold close malformed at h
  split at h
  · cases h
  · cases h
    exact hl

theorem read_pos {bytes : Bytes} {kind : TokenKind} {n : Nat}
    (hd : bytes.head?.any Byte.isDigit = true) (h : read bytes = .token kind n) : 0 < n := by
  have hex {k m} (h : hexadecimal bytes = .token k m) : 0 < m := by
    unfold hexadecimal malformed at h
    dsimp only at h
    split at h
    · cases h
    · split at h <;> exact close_pos h (by omega)
  have dec {k m} (h : decimal bytes = .token k m) : 0 < m := by
    have hw : 0 < Bytes.run inDigits bytes := by
      cases bytes with
      | nil => simp at hd
      | cons b rest => exact Bytes.run_pos (by simp_all [inDigits])
    unfold decimal malformed at h
    dsimp only at h
    split at h
    · cases h
    · split at h <;> exact close_pos h (by omega)
  unfold read at h
  split at h
  · split at h
    · exact hex h
    · exact dec h
  · exact dec h

end SyntaxRecovery.Number
