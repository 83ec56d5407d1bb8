import SyntaxRecovery.Json.Value

/-! Fields of records in JSON. -/
namespace SyntaxRecovery.Json

/-- The fields found for a record. A record may be written as an object, where unknown members are
passed over, or as an array of its fields in order, whose end may be missing. -/
structure Fields where
  members : List (String × Json)
  /-- Written as an object. -/
  named : Bool

/-- The fields of a record with the given names, each of which may occur but once. -/
def fields? (names : List String) : Json → Option Fields
  | .obj members =>
    if names.all fun name => members.countP (·.1 == name) ≤ 1 then some ⟨members, true⟩ else none
  | .arr items => if items.length ≤ names.length then some ⟨names.zip items, false⟩ else none
  | _ => none

def Fields.get? (fields : Fields) (name : String) : Option Json := fields.members.lookup name

/-- An empty object under a single name counts as no value. -/
def bare : Json → Json
  | .obj [(name, .obj [])] => .obj [(name, .null)]
  | value => value

/-- What stands in a field of a tagged record, where a name, alone or in a list, may have an empty
object under it. -/
def ofTagged : Json → Json
  | .arr items => .arr (items.map bare)
  | value => value.bare

/-- Splits the text under `tag`, which tells the case, from a record's other fields. -/
def tagged? (tag : String) (record : Json) : Option (String × Json) :=
  if record.isReadable then
    match record with
    | .obj members =>
      match members.filter (·.1 == tag) with
      | [(_, .str word)] =>
        let others := members.filter (·.1 != tag)
        some (word, .obj (others.map fun (name, value) => (name, value.ofTagged)))
      | _ => none
    | .arr (.str word :: items) => some (word, .arr (items.map ofTagged))
    | _ => none
  else none

end SyntaxRecovery.Json
