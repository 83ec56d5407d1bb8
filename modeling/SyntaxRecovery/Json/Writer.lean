import SyntaxRecovery.Json.Value

/-! JSON values as text. -/
namespace SyntaxRecovery.Json

def hexDigits (n : Nat) : String :=
  let digits := String.ofList (Nat.toDigits 16 n)
  String.ofList (List.replicate (4 - digits.length) '0') ++ digits

/-- A character of a string. Characters beyond ASCII stand for themselves. -/
def writeChar (c : Char) : String :=
  match c with
  | '"' => "\\\""
  | '\\' => "\\\\"
  | '\n' => "\\n"
  | '\r' => "\\r"
  | '\t' => "\\t"
  | '\x08' => "\\b"
  | '\x0c' => "\\f"
  | c => if c.toNat < 32 then "\\u" ++ hexDigits c.toNat else String.singleton c

def writeString (text : String) : String :=
  text.foldl (fun written c => written ++ writeChar c) "\"" ++ "\""

def opened : String := String.singleton '\x7b'

def closed : String := String.singleton '\x7d'

def scalarText : Json → String
  | .bool true => "true"
  | .bool false => "false"
  | .int value => toString value
  | .real literal => literal
  | .str text => writeString text
  | _ => "null"

mutual

/-- Adds a value to the text written so far, without blanks. -/
def writeCompact (written : String) : Json → String
  | .arr items => compactItems (written ++ "[") true items ++ "]"
  | .obj members => compactMembers (written ++ opened) true members ++ closed
  | value => written ++ scalarText value

def compactItems (written : String) (first : Bool) : List Json → String
  | [] => written
  | item :: rest =>
    compactItems (writeCompact (if first then written else written ++ ",") item) false rest

def compactMembers (written : String) (first : Bool) : List (String × Json) → String
  | [] => written
  | (name, value) :: rest =>
    let written := (if first then written else written ++ ",") ++ writeString name ++ ":"
    compactMembers (writeCompact written value) false rest

end

/-- A new line inside of `depth` containers. -/
def newLine (depth : Nat) : String := "\n" ++ String.ofList (List.replicate (2 * depth) ' ')

mutual

/-- Adds a value to the text written so far, with one line for each item and member. -/
def writePretty (depth : Nat) (written : String) : Json → String
  | .arr [] => written ++ "[]"
  | .arr items => prettyItems depth (written ++ "[") true items ++ newLine depth ++ "]"
  | .obj [] => written ++ opened ++ closed
  | .obj members =>
    prettyMembers depth (written ++ opened) true members ++ newLine depth ++ closed
  | value => written ++ scalarText value

def prettyItems (depth : Nat) (written : String) (first : Bool) : List Json → String
  | [] => written
  | item :: rest =>
    let written := (if first then written else written ++ ",") ++ newLine (depth + 1)
    prettyItems depth (writePretty (depth + 1) written item) false rest

def prettyMembers (depth : Nat) (written : String) (first : Bool) :
    List (String × Json) → String
  | [] => written
  | (name, value) :: rest =>
    let written := (if first then written else written ++ ",") ++ newLine (depth + 1) ++
      writeString name ++ ": "
    prettyMembers depth (writePretty (depth + 1) written value) false rest

end

def compact (value : Json) : String := writeCompact "" value

def pretty (value : Json) : String := writePretty 0 "" value

end SyntaxRecovery.Json
