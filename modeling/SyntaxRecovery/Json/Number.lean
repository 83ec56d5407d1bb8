import SyntaxRecovery.Json.Value
import SyntaxRecovery.Rounding

/-! Number literals of JSON. A literal that is no integer of 64 bits is a number of double
precision: a significand of 64 bits and a power of ten, each rounded, and their product or
quotient. -/
namespace SyntaxRecovery.Json.Number

def digitValue (digit : Char) : Nat := digit.toNat - '0'.toNat

def natOf (digits : List Char) : Nat :=
  digits.foldl (fun value digit => 10 * value + digitValue digit) 0

/-- Appends digits to a significand, up to the first for which 64 bits do not suffice, and counts
the digits that are left over. -/
def significand (value : Nat) : List Char → Nat × Nat
  | [] => (value, 0)
  | digit :: rest =>
    let longer := 10 * value + digitValue digit
    if longer < Nat.pow 2 64 then significand longer rest else (value, rest.length + 1)

/-- A natural number with the digits of double precision. -/
def double (n : Nat) : Nat := Rounding.toBits 53 n

/-- The least number that double precision has no place for. -/
def bound : Nat := Nat.pow 2 1024 - Nat.pow 2 970

structure Parts where
  negative : Bool
  whole : List Char
  fraction : Option (List Char)
  exponent : Option Int

def sign (mark : Char) : List Char → Bool × List Char
  | c :: rest => if c = mark then (true, rest) else (false, c :: rest)
  | [] => (false, [])

def exponent? : List Char → Option (Option Int)
  | [] => some none
  | mark :: rest =>
    let (negative, digits) := match rest with
      | '+' :: digits => (false, digits)
      | '-' :: digits => (true, digits)
      | digits => (false, digits)
    if (mark = 'e' ∨ mark = 'E') ∧ ¬ digits.isEmpty ∧ digits.all (·.isDigit) then
      some (some (if negative then - natOf digits else natOf digits))
    else none

/-- The parts of a literal: no superfluous zero in front, and digits wherever a mark asks for
them. -/
def parts? (literal : List Char) : Option Parts := do
  let (negative, rest) := sign '-' literal
  let whole := rest.takeWhile (·.isDigit)
  if whole.isEmpty ∨ (whole.head? = some '0' ∧ whole.length ≠ 1) then none
  let (pointed, rest) := sign '.' (rest.dropWhile (·.isDigit))
  let fraction := rest.takeWhile (·.isDigit)
  if pointed then
    if fraction.isEmpty then none
    let exponent ← exponent? (rest.dropWhile (·.isDigit))
    return { negative, whole, fraction := some fraction, exponent }
  else return { negative, whole, fraction := none, exponent := ← exponent? rest }

/-- The number is too large for double precision. None is too small: it is zero then. Of the digits
that the significand leaves over, those before the point still raise the power of ten. -/
def isBeyondBounds (parts : Parts) : Bool :=
  let fraction := parts.fraction.getD []
  let (whole, leftWhole) := significand 0 parts.whole
  let (value, leftFraction) := significand whole fraction
  let exponent := parts.exponent.getD 0 + leftWhole + leftFraction - fraction.length
  value != 0 && 0 ≤ exponent &&
    (308 < exponent || bound ≤ double value * double (Nat.pow 10 exponent.toNat))

def ofParts (literal : String) (parts : Parts) : Json :=
  let real := if isBeyondBounds parts then .unreadable else .real literal
  if parts.fraction.isSome ∨ parts.exponent.isSome then real
  else
    match significand 0 parts.whole with
    | (value, 0) =>
      if ¬ parts.negative then .int value
      else if value ≠ 0 ∧ value ≤ Nat.pow 2 63 then .int (-value)
      else real
    | _ => real

def read? (literal : String) : Option Json := (parts? literal.toList).map (ofParts literal)

end SyntaxRecovery.Json.Number
