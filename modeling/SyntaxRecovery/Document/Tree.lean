import SyntaxRecovery.Document.Stream
import SyntaxRecovery.Tree.Link

/-! The JSON form of trees. Links to parents are not written; they are found again from the
slots. -/
namespace SyntaxRecovery

instance : Coded NodeFlags where
  encode flags := .str flags.text
  decode?
    | .str text => NodeFlags.ofText? text
    | _ => none

namespace FieldType

def encode : (type : FieldType) → type.Value → Json
  | .child, value => Coded.encode value
  | .optional, value => Coded.encode value
  | .list, value => Coded.encode value
  | .switch, value | .truth, value => Coded.encode value
  | .text, value => Coded.encode value
  | .primitive, value => Coded.encode value
  | .assignmentOperator, value => Coded.encode value
  | .infixOperator, value => Coded.encode value
  | .postfixOperator, value => Coded.encode value

def decode? (fields : Json.Fields) (name : String) : (type : FieldType) → Option type.Value
  | .child => fields.required name
  | .optional => fields.nullable name
  | .list => fields.orElse name []
  | .switch => fields.orElse name false
  | .truth => fields.required name
  | .text => fields.required name
  | .primitive => fields.required name
  | .assignmentOperator => fields.required name
  | .infixOperator => fields.required name
  | .postfixOperator => fields.required name

end FieldType

namespace Record

def encode : (fields : List Field) → Record fields → List (String × Json)
  | [], _ => []
  | field :: fields, (value, rest) => (field.name, field.type.encode value) :: encode fields rest

def decode? (found : Json.Fields) : (fields : List Field) → Option (Record fields)
  | [] => some ()
  | field :: fields => do
    let value ← field.type.decode? found field.name
    return (value, ← decode? found fields)

end Record

instance : Coded NodeKind where
  encode kind :=
    .obj (("shape", encode kind.shape) :: Record.encode kind.shape.fields kind.values)
  decode? value := do
    let (word, record) ← value.tagged? "shape"
    let shape : NodeShape ← Named.ofName? word
    let found ← record.fields? (shape.fields.map (·.name))
    return ⟨shape, ← Record.decode? found shape.fields⟩

instance : Coded Node where
  encode node := .obj
    [("kind", encode node.kind), ("span", encode node.span), ("flags", encode node.flags)]
  decode? value := do
    let fields ← value.fields? ["kind", "span", "flags"]
    return {
      kind := ← fields.required "kind"
      span := ← fields.required "span"
      flags := ← fields.orElse "flags" .empty }

/-- What a document says of a tree. -/
structure TreeDocument where
  root : Option NodeId
  nodes : List Node

instance : Coded TreeDocument where
  encode document := .obj [("root", encode document.root), ("nodes", encode document.nodes)]
  decode? value := do
    let fields ← value.fields? ["root", "nodes"]
    return { root := ← fields.nullable "root", nodes := ← fields.required "nodes" }

namespace TreeDocument

def ofTree (tree : Tree) : TreeDocument := ⟨tree.root, tree.nodes.toList⟩

def link (document : TreeDocument) : Except TreeError Tree :=
  Tree.link document.nodes.toArray document.root

end TreeDocument

/-- Only what can be linked is a tree. -/
instance : Coded Tree where
  encode tree := encode (TreeDocument.ofTree tree)
  decode? value := do
    let document : TreeDocument ← decode? value
    document.link.toOption

end SyntaxRecovery
