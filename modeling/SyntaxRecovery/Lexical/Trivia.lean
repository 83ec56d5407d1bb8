import SyntaxRecovery.Bytes

/-! Blanks and comments between tokens. -/
namespace SyntaxRecovery.Trivia
open Byte

/-- The length of a block comment's remainder, up to and including the first closing mark; none when
there is none. `length` counts the bytes already passed. -/
def blockLength? (length : Nat) : Bytes → Option Nat
  | a :: b :: rest =>
    if a = of '*' ∧ b = of '/' then some (length + 2) else blockLength? (length + 1) (b :: rest)
  | _ => none

/-- The number of bytes at the front that belong to blanks and comments. A line comment ends before
its line feed. Where a block comment has no end, the failure tells where it opens. `length` counts
the bytes already passed. -/
def skip (length : Nat) : Bytes → Except Nat Nat
  | [] => .ok length
  | [b] => .ok (if isBlank b then length + 1 else length)
  | a :: b :: rest =>
    if isBlank a then skip (length + 1) (b :: rest)
    else if a = of '/' ∧ b = of '/' then
      let comment := Bytes.run (· != of '\n') rest
      skip (length + 2 + comment) (rest.drop comment)
    else if a = of '/' ∧ b = of '*' then
      match blockLength? 0 rest with
      | none => .error length
      | some comment => skip (length + 2 + comment) (rest.drop comment)
    else .ok length
termination_by bytes => bytes.length
decreasing_by
  all_goals
    simp only [List.length_cons, List.length_drop]
    omega

end SyntaxRecovery.Trivia
