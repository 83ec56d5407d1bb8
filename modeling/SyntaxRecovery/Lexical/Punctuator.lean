import SyntaxRecovery.Bytes
import SyntaxRecovery.Token

/-! Separators and operators. -/
namespace SyntaxRecovery.Punctuator
open Byte

def doubles : List ((UInt8 × UInt8) × TokenKind) :=
  [('=', '=', .equal), ('!', '=', .notEqual), ('<', '=', .lessEqual), ('>', '=', .greaterEqual),
   ('+', '+', .increment), ('+', '=', .plusAssign), ('-', '-', .decrement),
   ('-', '=', .minusAssign), ('-', '>', .arrow), ('*', '=', .starAssign),
   ('/', '=', .slashAssign), ('&', '&', .conditionalAnd), ('|', '|', .conditionalOr)].map
    fun (first, second, kind) => ((of first, of second), kind)

def singles : List (UInt8 × TokenKind) :=
  [('\x7b', .openBrace), ('\x7d', .closeBrace), ('[', .openBracket), (']', .closeBracket),
   ('(', .openParen), (')', .closeParen), (';', .semicolon), (',', .comma), ('.', .dot),
   (':', .colon), ('?', .question), ('@', .atSign), ('~', .tilde), ('^', .caret), ('%', .percent),
   ('=', .assign), ('!', .bang), ('<', .less), ('>', .greater), ('+', .plus), ('-', .minus),
   ('*', .star), ('/', .slash), ('&', .ampersand), ('|', .bar)].map
    fun (mark, kind) => (of mark, kind)

/-- The longest punctuator at the front and its length. -/
def read? : Bytes → Option (TokenKind × Nat)
  | a :: b :: _ =>
    match doubles.lookup (a, b) with
    | some kind => some (kind, 2)
    | none => (singles.lookup a).map (·, 1)
  | [a] => (singles.lookup a).map (·, 1)
  | [] => none

theorem read?_pos {bytes : Bytes} {kind : TokenKind} {n : Nat}
    (h : read? bytes = some (kind, n)) : 0 < n := by
  unfold read? at h
  split at h
  · split at h
    · cases h
      exact Nat.two_pos
    · obtain ⟨_, _, hn⟩ := Option.map_eq_some_iff.mp h
      cases hn
      exact Nat.one_pos
  · obtain ⟨_, _, hn⟩ := Option.map_eq_some_iff.mp h
    cases hn
    exact Nat.one_pos
  · cases h

end SyntaxRecovery.Punctuator
