/-! JSON values. -/
namespace SyntaxRecovery

inductive Json where
  | null
  | bool (value : Bool)
  /-- A number without fraction or exponent that 64 bits hold, with or without a sign. -/
  | int (value : Int)
  /-- Any other number, as it is written. -/
  | real (literal : String)
  | str (text : String)
  | arr (items : List Json)
  /-- Members in order. A name may occur more than once. -/
  | obj (members : List (String × Json))
  /-- A text or a name with half of a surrogate pair in it, a number beyond all bounds, or a
  container nested too deep. Such a value may stand where nobody looks at it. -/
  | unreadable
  deriving Repr

namespace Json

mutual

/-- Somebody may look at all of the value. -/
def isReadable : Json → Bool
  | .unreadable => false
  | .arr items => areReadable items
  | .obj members => membersReadable members
  | _ => true

def areReadable : List Json → Bool
  | [] => true
  | item :: rest => item.isReadable && areReadable rest

def membersReadable : List (String × Json) → Bool
  | [] => true
  | (_, value) :: rest => value.isReadable && membersReadable rest

end

mutual

/-- Keeps of the members with one name the last, at every level. -/
def lastWins : Json → Json
  | .arr items => .arr (itemsLastWin items)
  | .obj members => .obj (membersLastWin members)
  | value => value

def itemsLastWin : List Json → List Json
  | [] => []
  | item :: rest => item.lastWins :: itemsLastWin rest

def membersLastWin : List (String × Json) → List (String × Json)
  | [] => []
  | (name, value) :: rest =>
    let rest := membersLastWin rest
    if rest.any (·.1 == name) then rest else (name, value.lastWins) :: rest

end

/-- The value of the member with the name. -/
def get? : Json → String → Option Json
  | .obj members, name => members.lookup name
  | _, _ => none

end Json

end SyntaxRecovery
