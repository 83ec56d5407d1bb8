import SyntaxRecovery.Document.Tree
import SyntaxRecovery.Json.Reader
import SyntaxRecovery.Session

/-! The JSON form of sessions and of what propagation makes of them. -/
namespace SyntaxRecovery

/-- A member that is left out where there is no value. -/
def optionalMember {α : Type} [Coded α] (name : String) : Option α → List (String × Json)
  | none => []
  | some value => [(name, encode value)]

instance : Coded Session where
  encode session := .obj
    ([("config", encode session.config)] ++ optionalMember "source" session.source ++
      [("edits", encode session.edits), ("diagnostics", encode session.diagnostics),
       ("tree", encode session.tree)])
  decode? value := do
    let fields ← value.fields? ["config", "source", "edits", "diagnostics", "tree"]
    return {
      config := ← fields.orElse "config" {}
      source := ← fields.orElse "source" none
      edits := ← fields.orElse "edits" []
      diagnostics := ← fields.orElse "diagnostics" []
      tree := ← fields.orElse "tree" {} }

/-- The value that JSON text gives. -/
def ofJsonText? {α : Type} [Coded α] (text : String) : Option α := (Json.parse? text).bind decode?

def Propagated.encode (result : Propagated) : Json :=
  .obj ([("tree", Coded.encode result.tree), ("diagnostics", Coded.encode result.diagnostics)] ++
    optionalMember "tokens" result.tokens)

end SyntaxRecovery
