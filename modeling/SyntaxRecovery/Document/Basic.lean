import SyntaxRecovery.Json.Fields
import SyntaxRecovery.Named

/-! Values with a form in JSON documents. -/
namespace SyntaxRecovery

class Coded (α : Type) where
  encode : α → Json
  decode? : Json → Option α

export Coded (encode decode?)

/-- A number of at most `bits` bits. -/
def Json.word? (bits : Nat) : Json → Option Nat
  | .int value => if 0 ≤ value ∧ value < Nat.pow 2 bits then some value.toNat else none
  | _ => none

/-- Offsets and node ids have 32 bits. -/
instance : Coded Nat where
  encode n := .int n
  decode? := Json.word? 32

instance : Coded Bool where
  encode := .bool
  decode?
    | .bool value => some value
    | _ => none

instance : Coded String where
  encode := .str
  decode?
    | .str text => some text
    | _ => none

/-- A value of a named kind is its name, or an object with the name for its only member and no value
under it. -/
instance {α : Type} [Named α] : Coded α where
  encode a := .str (Named.name a)
  decode?
    | .str word => Named.ofName? word
    | .obj [(word, .null)] => Named.ofName? word
    | _ => none

instance {α : Type} [Coded α] : Coded (List α) where
  encode items := .arr (items.map encode)
  decode?
    | .arr items => items.mapM decode?
    | _ => none

instance {α : Type} [Coded α] : Coded (Option α) where
  encode
    | none => .null
    | some a => encode a
  decode?
    | .null => some none
    | value => (decode? value).map some

namespace Json.Fields
variable {α : Type} [Coded α]

/-- A field that must be there. -/
def required (fields : Fields) (name : String) : Option α := (fields.get? name).bind decode?

/-- A field that may be left out. -/
def orElse (fields : Fields) (name : String) (otherwise : α) : Option α :=
  match fields.get? name with
  | some value => decode? value
  | none => some otherwise

/-- A field that may be empty, and be left out of an object. -/
def nullable (fields : Fields) (name : String) : Option (Option α) :=
  if fields.named then fields.orElse name none else fields.required name

end Json.Fields

end SyntaxRecovery
