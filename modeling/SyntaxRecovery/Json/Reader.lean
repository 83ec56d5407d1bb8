import SyntaxRecovery.Json.Token

/-! JSON values from text. -/
namespace SyntaxRecovery.Json

/-- A container that is still open: what it holds, the latest first, and for an object the name that
the next value belongs to. -/
inductive Frame where
  | items (done : List Json)
  | members (done : List (Option String × Json)) (name : Option String)

/-- How deep containers may be nested. -/
def maxDepth : Nat := 127

/-- A container that has `depth - 1` others around it. -/
def within (depth : Nat) (container : Json) : Json :=
  if depth ≤ maxDepth then container else .unreadable

def ofText : Option String → Json
  | some text => .str text
  | none => .unreadable

/-- An object, unless one of its names is missing. -/
def ofMembers (members : List (Option String × Json)) : Json :=
  match members.mapM fun (name, value) => name.map (·, value) with
  | some members => .obj members
  | none => .unreadable

mutual

/-- Reads on where a value is due, inside of the open containers. -/
def expectValue (depth : Nat) (frames : List Frame) : List Symbol → Option Json
  | .word value :: rest => afterValue depth frames value rest
  | .text content :: rest => afterValue depth frames (ofText content) rest
  | .openArray :: .closeArray :: rest =>
    afterValue depth frames (within (depth + 1) (.arr [])) rest
  | .openArray :: rest => expectValue (depth + 1) (.items [] :: frames) rest
  | .openObject :: .closeObject :: rest =>
    afterValue depth frames (within (depth + 1) (.obj [])) rest
  | .openObject :: .text name :: .colon :: rest =>
    expectValue (depth + 1) (.members [] name :: frames) rest
  | _ => none

/-- Reads on after a value. -/
def afterValue (depth : Nat) (frames : List Frame) (value : Json) : List Symbol → Option Json
  | [] => if frames.isEmpty then some value else none
  | .comma :: .text name :: .colon :: rest =>
    match frames with
    | .members done earlier :: outer =>
      expectValue depth (.members ((earlier, value) :: done) name :: outer) rest
    | _ => none
  | .comma :: rest =>
    match frames with
    | .items done :: outer => expectValue depth (.items (value :: done) :: outer) rest
    | _ => none
  | .closeArray :: rest =>
    match frames with
    | .items done :: outer =>
      afterValue (depth - 1) outer (within depth (.arr (value :: done).reverse)) rest
    | _ => none
  | .closeObject :: rest =>
    match frames with
    | .members done name :: outer =>
      afterValue (depth - 1) outer (within depth (ofMembers ((name, value) :: done).reverse)) rest
    | _ => none
  | _ => none

end

/-- The value that a text holds, with nothing but blanks around it. -/
def parse? (text : String) : Option Json := (symbols? text).bind (expectValue 0 [])

end SyntaxRecovery.Json
