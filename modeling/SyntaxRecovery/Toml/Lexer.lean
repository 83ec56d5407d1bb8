import SyntaxRecovery.Numeral

/-! The tokens of TOML text, statement by statement. -/
namespace SyntaxRecovery.Toml

inductive Symbol where
  | word (text : String)
  | text (text : String)
  | equals | comma | openBracket | closeBracket
  /-- The end of a line inside of brackets. -/
  | lineBreak
  deriving DecidableEq, Repr

inductive Mode where
  | between
  | inWord (word : String)
  | inBasic (text : String)
  | afterBackslash (text : String)
  | inUnicode (text : String) (left value : Nat)
  | inLiteral (text : String)
  | inComment
  /-- After a carriage return, which only a line feed may follow. -/
  | afterReturn

structure Lexer where
  mode : Mode := .between
  depth : Nat := 0
  /-- The symbols of the present statement, the latest first. -/
  found : List Symbol := []
  /-- The statements before it, the latest first. -/
  statements : List (List Symbol) := []

namespace Lexer

def emit (lexer : Lexer) (symbol : Symbol) : Lexer :=
  { lexer with mode := .between, found := symbol :: lexer.found }

/-- Ends a line, and with it the statement if no bracket is open. -/
def endLine (lexer : Lexer) : Lexer :=
  if lexer.depth = 0 then
    { lexer with
      mode := .between, found := [], statements := lexer.found.reverse :: lexer.statements }
  else lexer.emit .lineBreak

def inWord (c : Char) : Bool := c.isAlphanum || c == '_' || c == '-' || c == '+' || c == '.'

/-- Characters that may stand in strings and comments. -/
def isPlain (c : Char) : Bool := c == '\t' || 32 ≤ c.toNat && c.toNat != 127

def between (lexer : Lexer) (c : Char) : Option Lexer :=
  if c = ' ' ∨ c = '\t' then some lexer
  else if c = '\n' then some lexer.endLine
  else if c = '\r' then some { lexer with mode := .afterReturn }
  else if c = '#' then some { lexer with mode := .inComment }
  else if c = '"' then some { lexer with mode := .inBasic "" }
  else if c = '\'' then some { lexer with mode := .inLiteral "" }
  else if c = '=' then some (lexer.emit .equals)
  else if c = ',' then some (lexer.emit .comma)
  else if c = '[' then some { lexer.emit .openBracket with depth := lexer.depth + 1 }
  else if c = ']' then some { lexer.emit .closeBracket with depth := lexer.depth - 1 }
  else if inWord c then some { lexer with mode := .inWord (String.singleton c) }
  else none

def escapes : List (Char × Char) :=
  [('b', '\x08'), ('t', '\t'), ('n', '\n'), ('f', '\x0c'), ('r', '\r'), ('"', '"'), ('\\', '\\')]

def step (lexer : Lexer) (c : Char) : Option Lexer :=
  match lexer.mode with
  | .between => lexer.between c
  | .inWord word =>
    if inWord c then some { lexer with mode := .inWord (word.push c) }
    else between (lexer.emit (.word word)) c
  | .inBasic text =>
    if c = '"' then some (lexer.emit (.text text))
    else if c = '\\' then some { lexer with mode := .afterBackslash text }
    else if isPlain c then some { lexer with mode := .inBasic (text.push c) }
    else none
  | .afterBackslash text =>
    if c = 'u' then some { lexer with mode := .inUnicode text 4 0 }
    else if c = 'U' then some { lexer with mode := .inUnicode text 8 0 }
    else (escapes.lookup c).map fun c => { lexer with mode := .inBasic (text.push c) }
  | .inUnicode text left value => do
    let value ← Numeral.push? 16 value c
    if 1 < left then return { lexer with mode := .inUnicode text (left - 1) value }
    else if value.isValidChar then return { lexer with mode := .inBasic (text.push (.ofNat value)) }
    else none
  | .inLiteral text =>
    if c = '\'' then some (lexer.emit (.text text))
    else if isPlain c then some { lexer with mode := .inLiteral (text.push c) }
    else none
  | .inComment =>
    if c = '\n' then some lexer.endLine
    else if c = '\r' then some { lexer with mode := .afterReturn }
    else if isPlain c then some lexer
    else none
  | .afterReturn => if c = '\n' then some lexer.endLine else none

end Lexer

/-- The statements of a text. The last line may lack its end. -/
def statements? (text : String) : Option (List (List Symbol)) := do
  let lexer ← (text.toList ++ ['\n']).foldlM Lexer.step {}
  if lexer.depth = 0 then
    match lexer.mode with
    | .between => return lexer.statements.reverse
    | _ => none
  else none

end SyntaxRecovery.Toml
