import SyntaxRecovery.Proofs.Tree.Slots

/-! What is left of a node when its children do not count: its shape, and the values of the fields
that hold no children. Changing a slot keeps that. -/
namespace SyntaxRecovery

/-- The value with nothing, or with the first node of all where it cannot be nothing, for a
child. -/
def FieldType.blank : (type : FieldType) → type.Value → type.Value
  | .child, _ => (0 : NodeId)
  | .optional, _ => none
  | .list, _ => []
  | .switch, value | .truth, value => value
  | .text, value => value
  | .primitive, value => value
  | .assignmentOperator, value => value
  | .infixOperator, value => value
  | .postfixOperator, value => value

def Record.blank : (fields : List Field) → Record fields → Record fields
  | [], _ => ()
  | field :: fields, (value, rest) => (field.type.blank value, blank fields rest)

/-- The node without its children. Two nodes have the same blank when they are of one shape and
agree in all that their fields hold besides children. -/
def NodeKind.blank (kind : NodeKind) : NodeKind :=
  ⟨kind.shape, Record.blank kind.shape.fields kind.values⟩

theorem FieldType.blank_of_swap? {type : FieldType} {old new : NodeId} {value value' : type.Value}
    (h : type.swap? old new value = some value') : type.blank value' = type.blank value := by
  cases type <;> simp only [swap?, blank, reduceCtorEq] at h ⊢

theorem FieldType.blank_of_take {type : FieldType} {child : NodeId} {value value' : type.Value}
    (h : type.take child value = .taken value') : type.blank value' = type.blank value := by
  cases type <;> simp only [take, blank, reduceCtorEq] at h ⊢

theorem Record.blank_of_swap? {fields : List Field} {old new : NodeId}
    {values values' : Record fields}
    (h : swap? old new fields values = some values') :
    blank fields values' = blank fields values := by
  induction fields with
  | nil => cases h
  | cons field fields ih =>
    obtain ⟨value, rest⟩ := values
    rcases swap?_cases h with ⟨value', hv, rfl⟩ | ⟨-, rest', hr, rfl⟩
    · exact congrArg (·, blank fields rest) (FieldType.blank_of_swap? hv)
    · exact congrArg (Prod.mk (field.type.blank value)) (ih hr)

theorem Record.blank_of_take {fields : List Field} {child : NodeId} {values values' : Record fields}
    (h : take child fields values = .taken values') :
    blank fields values' = blank fields values := by
  induction fields with
  | nil => cases h
  | cons field fields ih =>
    obtain ⟨value, rest⟩ := values
    rcases take_cases h with ⟨value', hv, rfl⟩ | ⟨-, rest', hr, rfl⟩
    · exact congrArg (·, blank fields rest) (FieldType.blank_of_take hv)
    · exact congrArg (Prod.mk (field.type.blank value)) (ih hr)

namespace NodeKind
variable {kind kind' : NodeKind} {old new child : NodeId}

theorem shape_eq_of_blank (h : kind'.blank = kind.blank) : kind'.shape = kind.shape := by
  have hshape := congrArg NodeKind.shape h
  exact hshape

@[simp] theorem identifier?_blank (kind : NodeKind) :
    kind.blank.identifier? = kind.identifier? := by
  obtain ⟨shape, values⟩ := kind
  cases shape <;> rfl

theorem blank_of_swap? (h : kind.swap? old new = some kind') : kind'.blank = kind.blank := by
  obtain ⟨values, hv, rfl⟩ := Option.map_eq_some_iff.mp h
  exact congrArg (NodeKind.mk kind.shape) (Record.blank_of_swap? hv)

theorem blank_of_take (h : kind.take child = .taken kind') : kind'.blank = kind.blank := by
  obtain ⟨values, hv, rfl⟩ := Taken.map_eq_taken_iff.mp h
  exact congrArg (NodeKind.mk kind.shape) (Record.blank_of_take hv)

end NodeKind
end SyntaxRecovery
