/-! Natural numbers rounded to a number of binary digits. -/
namespace SyntaxRecovery.Rounding

/-- The natural number nearest to `num / den`, of two the even one. -/
def nearest (num den : Nat) : Nat :=
  if den < 2 * (num % den) ∨ den = 2 * (num % den) ∧ num / den % 2 = 1 then num / den + 1
  else num / den

/-- The number nearest to `n` with nothing but zeros after its first `bits` binary digits. -/
def toBits (bits n : Nat) : Nat :=
  let place := Nat.pow 2 (n.log2 + 1 - bits)
  nearest n place * place

end SyntaxRecovery.Rounding
