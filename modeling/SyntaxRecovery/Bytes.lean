/-! Source text as UTF-8 bytes. -/
namespace SyntaxRecovery

abbrev Bytes := List UInt8

namespace Bytes

def ofText (text : String) : Bytes := text.toUTF8.data.toList

/-- The text that the bytes encode; none when they cut a character apart. -/
def text? (bytes : Bytes) : Option String := String.fromUTF8? bytes.toByteArray

def text (bytes : Bytes) : String := bytes.text?.getD ""

/-- The first character, U+FFFD when the bytes do not start with one. -/
def firstChar (bytes : Bytes) : Char :=
  ((bytes.take 4).toByteArray.utf8DecodeChar? 0).getD '\uFFFD'

/-- How many bytes at the front satisfy `p`. -/
def run (p : UInt8 → Bool) (bytes : Bytes) : Nat := (bytes.takeWhile p).length

theorem run_pos {p : UInt8 → Bool} {b : UInt8} {rest : Bytes} (h : p b = true) :
    0 < run p (b :: rest) := by
  simp [run, h]

end Bytes

/-! Classes of bytes. Bytes from 128 up belong to characters beyond ASCII. -/
namespace Byte

/-- The byte of an ASCII character. -/
abbrev of (c : Char) : UInt8 := c.toUInt8

/-- Space, tab, line feed, form feed and carriage return. -/
def isBlank (b : UInt8) : Bool := b == 32 || b == 9 || b == 10 || b == 12 || b == 13

def isDigit (b : UInt8) : Bool := of '0' ≤ b && b ≤ of '9'

def isLetter (b : UInt8) : Bool := of 'a' ≤ b && b ≤ of 'z' || of 'A' ≤ b && b ≤ of 'Z'

def isAlphanumeric (b : UInt8) : Bool := isLetter b || isDigit b

def isHexDigit (b : UInt8) : Bool :=
  isDigit b || of 'a' ≤ b && b ≤ of 'f' || of 'A' ≤ b && b ≤ of 'F'

/-- What a word starts with. Every character beyond ASCII is a word character. -/
def startsWord (b : UInt8) : Bool := isLetter b || b == of '_' || b == of '$' || 128 ≤ b

def inWord (b : UInt8) : Bool := startsWord b || isDigit b

end Byte

end SyntaxRecovery
