import SyntaxRecovery.Json.Value
import SyntaxRecovery.Toml.Lexer

/-! TOML documents as records. Values are strings of one line, whole numbers, truth values and
arrays. -/
namespace SyntaxRecovery.Toml

/-- Digits among which single underscores may stand. -/
def digits? (base : Nat) (text : List Char) : Option Nat :=
  let groups := text.splitOn '_'
  if groups.all (!·.isEmpty) then Numeral.value? base groups.flatten else none

def decimal? : List Char → Option Nat
  | ['0'] => some 0
  | '0' :: _ => none
  | digits => digits? 10 digits

def integer? : List Char → Option Int
  | '0' :: 'x' :: digits => digits? 16 digits
  | '0' :: 'o' :: digits => digits? 8 digits
  | '0' :: 'b' :: digits => digits? 2 digits
  | '-' :: digits => do return -(← decimal? digits)
  | '+' :: digits => decimal? digits
  | digits => decimal? digits

/-- Numbers have 64 bits with a sign. -/
def scalar? (word : String) : Option Json :=
  match word with
  | "true" => some (.bool true)
  | "false" => some (.bool false)
  | _ => do
    let value ← integer? word.toList
    if -Nat.pow 2 63 ≤ value ∧ value < Nat.pow 2 63 then some (.int value) else none

mutual

/-- Reads a value and what belongs to it up to the end of the statement. `arrays` holds the items of
the open arrays, the innermost and the latest first. -/
def value? (arrays : List (List Json)) : List Symbol → Option Json
  | .lineBreak :: rest => value? arrays rest
  | .text text :: rest => afterValue? arrays (.str text) rest
  | .word word :: rest => do afterValue? arrays (← scalar? word) rest
  | .openBracket :: rest => value? ([] :: arrays) rest
  | .closeBracket :: rest =>
    match arrays with
    | items :: outer => afterValue? outer (.arr items.reverse) rest
    | [] => none
  | _ => none

def afterValue? (arrays : List (List Json)) (value : Json) : List Symbol → Option Json
  | [] => if arrays.isEmpty then some value else none
  | .lineBreak :: rest => afterValue? arrays value rest
  | .comma :: rest =>
    match arrays with
    | items :: outer => value? ((value :: items) :: outer) rest
    | [] => none
  | .closeBracket :: rest =>
    match arrays with
    | items :: outer => afterValue? outer (.arr (value :: items).reverse) rest
    | [] => none
  | _ => none

end

def inKey (c : Char) : Bool := c.isAlphanum || c == '_' || c == '-'

/-- The path that a key stands for: the parts between its points. -/
def key? : Symbol → Option (List String)
  | .text text => some [text]
  | .word word =>
    let parts := word.toList.splitOn '.'
    if parts.all fun part => !part.isEmpty && part.all inKey then some (parts.map String.ofList)
    else none
  | _ => none

/-- Adds a value under a path where there is none yet. -/
def insert? (value : Json) : List String → List (String × Json) → Option (List (String × Json))
  | [], _ => none
  | [name], table => if table.any (·.1 == name) then none else some (table ++ [(name, value)])
  | name :: path, table =>
    match table.lookup name with
    | none => do return table ++ [(name, .obj (← insert? value path []))]
    | some (.obj inner) => do
      let inner ← insert? value path inner
      return table.map fun (other, old) => (other, if other = name then .obj inner else old)
    | some _ => none

/-- What has been read of a document. -/
structure Progress where
  /-- The path of the table that the present keys belong to. -/
  table : List String := []
  members : List (String × Json) := []

def statement? (progress : Progress) : List Symbol → Option Progress
  | [] => some progress
  | [.openBracket, key, .closeBracket] => do
    let table ← key? key
    return { table, members := ← insert? (.obj []) table progress.members }
  | key :: .equals :: value => do
    let path := progress.table ++ (← key? key)
    return { progress with members := ← insert? (← value? [] value) path progress.members }
  | _ => none

/-- The record that a document holds. -/
def parse? (text : String) : Option Json := do
  let progress ← (← statements? text).foldlM statement? {}
  return .obj progress.members

end SyntaxRecovery.Toml
