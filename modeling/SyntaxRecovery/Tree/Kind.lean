import SyntaxRecovery.Tree.Shape

/-! Nodes without their place in a tree: a shape and a value for each of its fields. -/
namespace SyntaxRecovery

/-- One value for each field of a list. -/
def Record : List Field → Type
  | [] => Unit
  | field :: fields => field.type.Value × Record fields

instance FieldType.decEqValue : (type : FieldType) → DecidableEq type.Value
  | .child | .optional | .list | .switch | .truth | .text | .primitive | .assignmentOperator
  | .infixOperator | .postfixOperator => inferInstance

instance Record.decEq : (fields : List Field) → DecidableEq (Record fields)
  | [] => inferInstanceAs (DecidableEq Unit)
  | field :: fields =>
    have := Record.decEq fields
    inferInstanceAs (DecidableEq (field.type.Value × Record fields))

/-- What comes of taking a child out of its slot. -/
inductive Taken (α : Type) where
  /-- The child is in none of the slots. -/
  | absent
  /-- Its slot must not be empty. -/
  | mandatory
  | taken (rest : α)
  deriving DecidableEq, Repr

def Taken.map {α β : Type} (f : α → β) : Taken α → Taken β
  | .absent => .absent
  | .mandatory => .mandatory
  | .taken rest => .taken (f rest)

namespace FieldType

def children : (type : FieldType) → type.Value → List NodeId
  | .child, id => [id]
  | .optional, id? => id?.toList
  | .list, ids => ids
  | .switch, _ | .truth, _ | .text, _ | .primitive, _ | .assignmentOperator, _ | .infixOperator, _
  | .postfixOperator, _ => []

/-- Puts `new` in the place of the first `old`; none where `old` is no child. -/
def swap? (old new : NodeId) : (type : FieldType) → type.Value → Option type.Value
  | .child, id => if id = old then some new else none
  | .optional, id? => if id? = some old then some (some new) else none
  | .list, ids => if old ∈ ids then some (ids.replace old new) else none
  | .switch, _ | .truth, _ | .text, _ | .primitive, _ | .assignmentOperator, _ | .infixOperator, _
  | .postfixOperator, _ => none

/-- Takes out the first `child`. -/
def take (child : NodeId) : (type : FieldType) → type.Value → Taken type.Value
  | .child, id => if id = child then .mandatory else .absent
  | .optional, id? => if id? = some child then .taken none else .absent
  | .list, ids => if child ∈ ids then .taken (ids.erase child) else .absent
  | .switch, _ | .truth, _ | .text, _ | .primitive, _ | .assignmentOperator, _ | .infixOperator, _
  | .postfixOperator, _ => .absent

end FieldType

namespace Record

def children : (fields : List Field) → Record fields → List NodeId
  | [], _ => []
  | field :: fields, (value, rest) => field.type.children value ++ children fields rest

def swap? (old new : NodeId) : (fields : List Field) → Record fields → Option (Record fields)
  | [], _ => none
  | field :: fields, (value, rest) =>
    match field.type.swap? old new value with
    | some value => some (value, rest)
    | none => (swap? old new fields rest).map (value, ·)

def take (child : NodeId) : (fields : List Field) → Record fields → Taken (Record fields)
  | [], _ => .absent
  | field :: fields, (value, rest) =>
    match field.type.take child value with
    | .absent => (take child fields rest).map (value, ·)
    | .mandatory => .mandatory
    | .taken value => .taken (value, rest)

end Record

structure NodeKind where
  shape : NodeShape
  values : Record shape.fields
  deriving DecidableEq

namespace NodeKind

def simpleName (identifier : String) : NodeKind := ⟨.simpleName, (identifier, ())⟩

/-- The children in the order of the source text. -/
def children (kind : NodeKind) : List NodeId := Record.children kind.shape.fields kind.values

/-- Puts `new` in the slot that holds `old`. -/
def swap? (kind : NodeKind) (old new : NodeId) : Option NodeKind :=
  (Record.swap? old new kind.shape.fields kind.values).map (⟨kind.shape, ·⟩)

/-- Empties the slot that holds `child`. -/
def take (kind : NodeKind) (child : NodeId) : Taken NodeKind :=
  (Record.take child kind.shape.fields kind.values).map (⟨kind.shape, ·⟩)

/-- The text of a simple name. -/
def identifier? : NodeKind → Option String
  | ⟨.simpleName, (identifier, _)⟩ => some identifier
  | _ => none

end NodeKind

end SyntaxRecovery
