import SyntaxRecovery.Json.Number
import SyntaxRecovery.Numeral

/-! The tokens of JSON text. -/
namespace SyntaxRecovery.Json

inductive Symbol where
  | openArray | closeArray | openObject | closeObject | comma | colon
  /-- A string; none stands for one with half of a surrogate pair in it. -/
  | text (content : Option String)
  /-- A number, a truth value or null. -/
  | word (value : Json)

/-- Text of a string read so far. `sound` says that no half surrogate pair was in it, `high` is a
first half that waits for its second. -/
structure Partial where
  text : String := ""
  sound : Bool := true
  high : Option Nat := none

namespace Partial

/-- Gives up waiting for a second half. -/
def settle (part : Partial) : Partial :=
  if part.high.isSome then { part with sound := false, high := none } else part

def push (part : Partial) (c : Char) : Partial :=
  let part := part.settle
  { part with text := part.text.push c }

/-- Adds a unit of UTF-16. -/
def pushUnit (part : Partial) (unit : Nat) : Partial :=
  if 0xd800 ≤ unit ∧ unit < 0xdc00 then { part.settle with high := some unit }
  else if 0xdc00 ≤ unit ∧ unit < 0xe000 then
    match part.high with
    | some high =>
      let c := Char.ofNat (0x10000 + (high - 0xd800) * 0x400 + (unit - 0xdc00))
      { part with text := part.text.push c, high := none }
    | none => { part with sound := false }
  else part.push (Char.ofNat unit)

def content (part : Partial) : Option String :=
  let part := part.settle
  if part.sound then some part.text else none

end Partial

inductive Mode where
  | between
  | inString (part : Partial)
  | afterBackslash (part : Partial)
  /-- In the digits of a Unicode escape, of which `left` are still to come. -/
  | inUnit (part : Partial) (left : Nat) (unit : Nat)
  /-- In a number or a name. -/
  | inWord (word : String)

structure Lexer where
  mode : Mode := .between
  /-- The tokens found, the latest first. -/
  found : List Symbol := []

namespace Lexer

def emit (lexer : Lexer) (symbol : Symbol) : Lexer := ⟨.between, symbol :: lexer.found⟩

def wordValue? (word : String) : Option Json :=
  if word = "null" then some .null
  else if word = "true" then some (.bool true)
  else if word = "false" then some (.bool false)
  else Number.read? word

def inWord (c : Char) : Bool := c.isAlphanum || c == '+' || c == '-' || c == '.'

/-- Takes a character that stands outside of strings and words. -/
def between (lexer : Lexer) (c : Char) : Option Lexer :=
  if c = ' ' ∨ c = '\t' ∨ c = '\n' ∨ c = '\r' then some lexer
  else if c = '"' then some { lexer with mode := .inString {} }
  else if inWord c then some { lexer with mode := .inWord (String.singleton c) }
  else if c = '[' then some (lexer.emit .openArray)
  else if c = ']' then some (lexer.emit .closeArray)
  else if c = '\x7b' then some (lexer.emit .openObject)
  else if c = '\x7d' then some (lexer.emit .closeObject)
  else if c = ',' then some (lexer.emit .comma)
  else if c = ':' then some (lexer.emit .colon)
  else none

def escapes : List (Char × Char) :=
  [('"', '"'), ('\\', '\\'), ('/', '/'), ('b', '\x08'), ('f', '\x0c'), ('n', '\n'), ('r', '\r'),
   ('t', '\t')]

def step (lexer : Lexer) (c : Char) : Option Lexer :=
  match lexer.mode with
  | .between => lexer.between c
  | .inWord word =>
    if inWord c then some { lexer with mode := .inWord (word.push c) }
    else do between (lexer.emit (.word (← wordValue? word))) c
  | .inString part =>
    if c = '"' then some (lexer.emit (.text part.content))
    else if c = '\\' then some { lexer with mode := .afterBackslash part }
    else if c.toNat < 32 then none
    else some { lexer with mode := .inString (part.push c) }
  | .afterBackslash part =>
    if c = 'u' then some { lexer with mode := .inUnit part 4 0 }
    else (escapes.lookup c).map fun c => { lexer with mode := .inString (part.push c) }
  | .inUnit part left unit => do
    let unit ← Numeral.push? 16 unit c
    if left = 1 then return { lexer with mode := .inString (part.pushUnit unit) }
    else return { lexer with mode := .inUnit part (left - 1) unit }

def finish (lexer : Lexer) : Option (List Symbol) :=
  match lexer.mode with
  | .between => some lexer.found.reverse
  | .inWord word => (wordValue? word).map fun value => (lexer.emit (.word value)).found.reverse
  | _ => none

end Lexer

def symbols? (text : String) : Option (List Symbol) :=
  (text.toList.foldlM Lexer.step {}).bind Lexer.finish

end SyntaxRecovery.Json
