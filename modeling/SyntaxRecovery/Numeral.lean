/-! Numbers written with the digits of a base of at most sixteen. -/
namespace SyntaxRecovery.Numeral

/-- Letters of both cases stand for the digits from ten up. -/
def digit? (c : Char) : Option Nat :=
  if '0' ≤ c ∧ c ≤ '9' then some (c.toNat - '0'.toNat)
  else if 'a' ≤ c ∧ c ≤ 'f' then some (c.toNat - 'a'.toNat + 10)
  else if 'A' ≤ c ∧ c ≤ 'F' then some (c.toNat - 'A'.toNat + 10)
  else none

/-- Appends a digit to a number. -/
def push? (base value : Nat) (c : Char) : Option Nat := do
  let digit ← digit? c
  if digit < base then some (base * value + digit) else none

/-- The number that at least one digit stands for. -/
def value? (base : Nat) (digits : List Char) : Option Nat :=
  if digits.isEmpty then none else digits.foldlM (push? base) 0

end SyntaxRecovery.Numeral
