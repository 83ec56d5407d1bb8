import SyntaxRecovery.Proofs.Tree.InPlace
import SyntaxRecovery.Proofs.Tree.Payload

/-! The slots of a node of each shape, spelled out. The children are what the slots hold, in their
order. Exchanging a child and taking one out change the first slot that has it and leave all else as
it was. -/
namespace SyntaxRecovery

/-- A slot of a node, with what it holds. -/
inductive Slot where
  /-- Never empty. -/
  | child (id : NodeId)
  | optional (id? : Option NodeId)
  | list (ids : List NodeId)
  deriving DecidableEq

namespace Slot

def ids : Slot → List NodeId
  | child id => [id]
  | optional id? => id?.toList
  | list ids => ids

/-- The type of the fields that are such slots. -/
def type : Slot → FieldType
  | child _ => .child
  | optional _ => .optional
  | list _ => .list

end Slot

/-- The slots of a node in the order of the source text. -/
def NodeKind.slots : NodeKind → List Slot
  | ⟨.compilationUnit, (package, imports, types, _)⟩ =>
    [.optional package, .list imports, .list types]
  | ⟨.packageDeclaration, (annotations, name, _)⟩ => [.list annotations, .child name]
  | ⟨.importDeclaration, (name, _)⟩ => [.child name]
  | ⟨.typeDeclaration, (modifiers, name, _, body, _)⟩ => [.list modifiers, .child name, .list body]
  | ⟨.fieldDeclaration, (modifiers, type, fragments, _)⟩ =>
    [.list modifiers, .child type, .list fragments]
  | ⟨.methodDeclaration, (modifiers, returnType, name, parameters, body, _)⟩ =>
    [.list modifiers, .optional returnType, .child name, .list parameters, .optional body]
  | ⟨.initializer, (body, _)⟩ => [.child body]
  | ⟨.singleVariableDeclaration, (type, name, _)⟩ => [.child type, .child name]
  | ⟨.variableDeclarationFragment, (name, initializer, _)⟩ => [.child name, .optional initializer]
  | ⟨.annotationMarker, (typeName, _)⟩ => [.child typeName]
  | ⟨.annotationNormal, (typeName, values, _)⟩ => [.child typeName, .list values]
  | ⟨.memberValuePair, (name, value, _)⟩ => [.child name, .child value]
  | ⟨.annotationSingle, (typeName, value, _)⟩ => [.child typeName, .child value]
  | ⟨.simpleType, (name, _)⟩ => [.child name]
  | ⟨.arrayType, (element, _)⟩ => [.child element]
  | ⟨.block, (statements, _)⟩ => [.list statements]
  | ⟨.expressionStatement, (expression, _)⟩ => [.child expression]
  | ⟨.variableDeclarationStatement, (type, fragments, _)⟩
  | ⟨.variableDeclarationExpression, (type, fragments, _)⟩ => [.child type, .list fragments]
  | ⟨.returnStatement, (expression, _)⟩ => [.optional expression]
  | ⟨.ifStatement, (condition, thenStatement, elseStatement, _)⟩ =>
    [.child condition, .child thenStatement, .optional elseStatement]
  | ⟨.forStatement, (initializers, condition, updaters, body, _)⟩ =>
    [.list initializers, .optional condition, .list updaters, .child body]
  | ⟨.whileStatement, (condition, body, _)⟩ => [.child condition, .child body]
  | ⟨.doStatement, (body, condition, _)⟩ => [.child body, .child condition]
  | ⟨.breakStatement, (label, _)⟩ | ⟨.continueStatement, (label, _)⟩ => [.optional label]
  | ⟨.throwStatement, (expression, _)⟩ => [.child expression]
  | ⟨.switchStatement, (expression, statements, _)⟩ => [.child expression, .list statements]
  | ⟨.switchCase, (expressions, _)⟩ => [.list expressions]
  | ⟨.qualifiedName, (qualifier, name, _)⟩ => [.child qualifier, .child name]
  | ⟨.assignment, (left, _, right, _)⟩ => [.child left, .child right]
  | ⟨.infixExpression, (left, _, right, _)⟩ => [.child left, .child right]
  | ⟨.postfixExpression, (operand, _)⟩ => [.child operand]
  | ⟨.parenthesizedExpression, (expression, _)⟩ => [.child expression]
  | ⟨.methodInvocation, (target, name, arguments, _)⟩ =>
    [.optional target, .child name, .list arguments]
  | ⟨.classInstanceCreation, (type, arguments, _)⟩ => [.child type, .list arguments]
  | ⟨.arrayAccess, (array, index, _)⟩ => [.child array, .child index]
  | ⟨.primitiveType, _⟩ | ⟨.emptyStatement, _⟩ | ⟨.simpleName, _⟩ | ⟨.numberLiteral, _⟩
  | ⟨.stringLiteral, _⟩ | ⟨.characterLiteral, _⟩ | ⟨.booleanLiteral, _⟩ | ⟨.nullLiteral, _⟩
  | ⟨.thisExpression, _⟩ => []

/-- Changes the ids in the first slot that has `id` among them. The slots in front do not have
it. -/
inductive Slot.ChangesFirst (id : NodeId) (change : List NodeId → List NodeId) :
    List Slot → List Slot → Prop
  | here {slot slot' : Slot} {behind : List Slot} (held : id ∈ slot.ids)
    (type_eq : slot'.type = slot.type) (ids_eq : slot'.ids = change slot.ids) :
    ChangesFirst id change (slot :: behind) (slot' :: behind)
  | later {slot : Slot} {before after : List Slot} (absent : id ∉ slot.ids)
    (rest : ChangesFirst id change before after) :
    ChangesFirst id change (slot :: before) (slot :: after)

namespace NodeKind

/-- `after` is the node with the ids changed in the first slot that has `id`, and with all else as
it was: the other slots, the shape, and the fields that hold no children. -/
structure Edited (kind : NodeKind) (id : NodeId) (change : List NodeId → List NodeId)
    (after : NodeKind) : Prop where
  slots : Slot.ChangesFirst id change kind.slots after.slots
  children : after.children = change kind.children
  blank : after.blank = kind.blank

/-- The first slot with the id is one that must not be empty. -/
def FirstMandatory (kind : NodeKind) (id : NodeId) : Prop :=
  ∃ earlier later, kind.slots = earlier ++ .child id :: later ∧ id ∉ earlier.flatMap Slot.ids

end NodeKind

namespace Slot
variable {id : NodeId} {change : List NodeId → List NodeId} {slot slot' : Slot}
  {earlier later before after after' : List Slot}

theorem ext (htype : slot.type = slot'.type) (hids : slot.ids = slot'.ids) : slot = slot' := by
  cases slot <;> cases slot' <;> cases htype
  case child.child => simpa [ids] using hids
  case optional.optional id? id?' => cases id? <;> cases id?' <;> simp_all [ids]
  case list.list => exact congrArg list hids

namespace ChangesFirst

theorem append_left (h : ChangesFirst id change before after) (habsent : id ∉ earlier.flatMap ids) :
    ChangesFirst id change (earlier ++ before) (earlier ++ after) := by
  induction earlier with
  | nil => exact h
  | cons slot earlier ih =>
    rw [List.flatMap_cons, List.mem_append, not_or] at habsent
    exact .later habsent.1 (ih habsent.2)

theorem append_right (h : ChangesFirst id change before after) (behind : List Slot) :
    ChangesFirst id change (before ++ behind) (after ++ behind) := by
  induction h with
  | here held type_eq ids_eq => exact .here held type_eq ids_eq
  | later absent _ ih => exact .later absent ih

theorem mem (h : ChangesFirst id change before after) : id ∈ before.flatMap ids := by
  induction h with
  | here held => exact List.mem_append_left _ held
  | later _ _ ih => exact List.mem_append_right _ ih

theorem unique (h : ChangesFirst id change before after)
    (h' : ChangesFirst id change before after') : after = after' := by
  induction h generalizing after' with
  | here held type_eq ids_eq =>
    cases h' with
    | here _ type_eq' ids_eq' => rw [ext (type_eq.trans type_eq'.symm) (ids_eq.trans ids_eq'.symm)]
    | later absent => exact absurd held absent
  | later absent _ ih =>
    cases h' with
    | here held => exact absurd held absent
    | later _ rest => rw [ih rest]

/-- A slot that must not be empty cannot lose its child. -/
theorem not_erase_child (habsent : id ∉ earlier.flatMap ids) :
    ¬ ChangesFirst id (·.erase id) (earlier ++ child id :: later) after := by
  induction earlier generalizing after with
  | nil =>
    intro h
    cases h with
    -- Afterwards the slot would still be one for a single child, but without any.
    | @here _ slot' _ _ type_eq ids_eq => cases slot' <;> simp [type, ids] at type_eq ids_eq
    | later absent => exact absent List.mem_cons_self
  | cons slot earlier ih =>
    rw [List.flatMap_cons, List.mem_append, not_or] at habsent
    intro h
    cases h with
    | here held => exact habsent.1 held
    | later _ rest => exact ih habsent.2 rest

end ChangesFirst
end Slot

namespace FieldType
variable {type : FieldType} {child : NodeId} {value value' : type.Value}

/-- The slot that a field is, if it is one. -/
def slots : (type : FieldType) → type.Value → List Slot
  | .child, id => [.child id]
  | .optional, id? => [.optional id?]
  | .list, ids => [.list ids]
  | .switch, _ | .truth, _ | .text, _ | .primitive, _ | .assignmentOperator, _ | .infixOperator, _
  | .postfixOperator, _ => []

theorem length_slots (value value' : type.Value) :
    (type.slots value).length = (type.slots value').length := by
  cases type <;> rfl

theorem children_eq_slots (type : FieldType) (value : type.Value) :
    type.children value = (type.slots value).flatMap Slot.ids := by
  cases type <;> simp [children, slots, Slot.ids]

theorem not_mem_slots (h : child ∉ type.children value) :
    child ∉ (type.slots value).flatMap Slot.ids := by
  rwa [← children_eq_slots]

theorem ext_slots (hslots : type.slots value = type.slots value')
    (hblank : type.blank value = type.blank value') : value = value' := by
  cases type with
  | child | optional | list => simpa [slots] using hslots
  | _ => exact hblank

theorem changesFirst {change : List NodeId → List NodeId} (hmem : child ∈ type.children value)
    (hchildren : type.children value' = change (type.children value)) :
    Slot.ChangesFirst child change (type.slots value) (type.slots value') := by
  cases type with
  | child | optional | list => exact .here hmem rfl hchildren
  | _ => cases hmem

theorem slots_of_take_mandatory (h : type.take child value = .mandatory) :
    type.slots value = [.child child] := by
  cases type <;> simp only [take, reduceCtorEq] at h <;> split at h <;> cases h
  case child.isTrue hid => rw [slots, hid]

end FieldType

namespace Record
variable {old new child : NodeId} {fields : List Field} {values values' : Record fields}

/-- The fields that are slots. -/
def slots : (fields : List Field) → Record fields → List Slot
  | [], _ => []
  | field :: fields, (value, rest) => field.type.slots value ++ slots fields rest

theorem children_eq_slots (fields : List Field) (values : Record fields) :
    children fields values = (slots fields values).flatMap Slot.ids := by
  induction fields with
  | nil => rfl
  | cons field fields ih =>
    obtain ⟨value, rest⟩ := values
    rw [slots, List.flatMap_append, ← ih, ← FieldType.children_eq_slots, children]

theorem ext_slots (hslots : slots fields values = slots fields values')
    (hblank : blank fields values = blank fields values') : values = values' := by
  induction fields with
  | nil => rfl
  | cons field fields ih =>
    obtain ⟨value, rest⟩ := values
    obtain ⟨value', rest'⟩ := values'
    obtain ⟨hvalue, hrest⟩ := List.append_inj hslots (FieldType.length_slots value value')
    obtain ⟨hblankValue, hblankRest⟩ := Prod.mk.inj hblank
    rw [FieldType.ext_slots hvalue hblankValue, ih hrest hblankRest]

theorem slots_of_swap? (h : swap? old new fields values = some values') :
    Slot.ChangesFirst old (·.replace old new) (slots fields values) (slots fields values') := by
  induction fields with
  | nil => cases h
  | cons field fields ih =>
    obtain ⟨value, rest⟩ := values
    rcases swap?_cases h with ⟨value', hv, rfl⟩ | ⟨hv, rest', hr, rfl⟩
    · obtain ⟨hmem, hchildren⟩ := FieldType.children_of_swap? hv
      exact (FieldType.changesFirst hmem hchildren).append_right _
    · have habsent := FieldType.swap?_eq_none_iff.mp hv
      exact (ih hr).append_left (FieldType.not_mem_slots habsent)

theorem slots_of_take (h : take child fields values = .taken values') :
    Slot.ChangesFirst child (·.erase child) (slots fields values) (slots fields values') := by
  induction fields with
  | nil => cases h
  | cons field fields ih =>
    obtain ⟨value, rest⟩ := values
    rcases take_cases h with ⟨value', hv, rfl⟩ | ⟨hv, rest', hr, rfl⟩
    · obtain ⟨hmem, hchildren⟩ := FieldType.children_of_take hv
      exact (FieldType.changesFirst hmem hchildren).append_right _
    · have habsent := FieldType.take_eq_absent_iff.mp hv
      exact (ih hr).append_left (FieldType.not_mem_slots habsent)

theorem slots_of_take_mandatory (h : take child fields values = .mandatory) : ∃ earlier later,
    slots fields values = earlier ++ .child child :: later ∧ child ∉ earlier.flatMap Slot.ids := by
  induction fields with
  | nil => cases h
  | cons field fields ih =>
    obtain ⟨value, rest⟩ := values
    rcases take_mandatory_cases h with hv | ⟨hv, hr⟩
    · refine ⟨[], slots fields rest, ?_, List.not_mem_nil⟩
      rw [slots, FieldType.slots_of_take_mandatory hv]
      rfl
    · obtain ⟨earlier, later, heq, habsent⟩ := ih hr
      have hvalue := FieldType.take_eq_absent_iff.mp hv
      refine ⟨field.type.slots value ++ earlier, later, ?_, ?_⟩
      · rw [slots, heq, List.append_assoc]
      · rw [List.flatMap_append, List.mem_append, not_or]
        exact ⟨FieldType.not_mem_slots hvalue, habsent⟩

end Record

namespace NodeKind
variable {kind after after' : NodeKind} {old new child : NodeId}
    {change : List NodeId → List NodeId}

/-- The slots of a shape are those of its fields that hold children. -/
theorem slots_eq (kind : NodeKind) : kind.slots = Record.slots kind.shape.fields kind.values := by
  obtain ⟨shape, values⟩ := kind
  -- The only place where the shapes are told apart: each row of the table against the fields of its
  -- shape.
  cases shape <;> rfl

theorem children_eq_slots (kind : NodeKind) : kind.children = kind.slots.flatMap Slot.ids := by
  rw [slots_eq, children, Record.children_eq_slots]

/-- A node is known from its slots and from what is in none. -/
theorem ext_slots (hslots : after.slots = kind.slots) (hblank : after.blank = kind.blank) :
    after = kind := by
  obtain ⟨shape, values⟩ := kind
  obtain ⟨shape', values'⟩ := after
  obtain rfl : shape' = shape := shape_eq_of_blank hblank
  rw [slots_eq, slots_eq] at hslots
  have hvalues : values' = values := Record.ext_slots hslots (eq_of_heq (NodeKind.mk.inj hblank).2)
  rw [hvalues]

theorem edited_of_swap? (h : kind.swap? old new = some after) :
    kind.Edited old (·.replace old new) after := by
  have hblank := blank_of_swap? h
  obtain ⟨values, hv, rfl⟩ := Option.map_eq_some_iff.mp h
  refine ⟨?_, (Record.children_of_swap? hv).2, hblank⟩
  rw [slots_eq, slots_eq]
  exact Record.slots_of_swap? hv

theorem edited_of_take (h : kind.take child = .taken after) :
    kind.Edited child (·.erase child) after := by
  refine ⟨?_, children_of_take h, blank_of_take h⟩
  obtain ⟨values, hv, rfl⟩ := Taken.map_eq_taken_iff.mp h
  rw [slots_eq, slots_eq]
  exact Record.slots_of_take hv

theorem firstMandatory_of_take (h : kind.take child = .mandatory) : kind.FirstMandatory child := by
  have hv := Taken.map_eq_mandatory_iff.mp h
  rw [FirstMandatory, slots_eq]
  exact Record.slots_of_take_mandatory hv

theorem FirstMandatory.mem (h : kind.FirstMandatory child) : child ∈ kind.children := by
  obtain ⟨earlier, later, heq, -⟩ := h
  simp [children_eq_slots, heq, Slot.ids]

namespace Edited

theorem mem (h : kind.Edited child change after) : child ∈ kind.children := by
  rw [children_eq_slots]
  exact h.slots.mem

theorem unique (h : kind.Edited child change after) (h' : kind.Edited child change after') :
    after = after' :=
  ext_slots (h.slots.unique h'.slots) (h.blank.trans h'.blank.symm)

theorem not_firstMandatory (h : kind.Edited child (·.erase child) after) :
    ¬ kind.FirstMandatory child := by
  rintro ⟨earlier, later, heq, habsent⟩
  have hslots := h.slots
  rw [heq] at hslots
  exact Slot.ChangesFirst.not_erase_child habsent hslots

end Edited

theorem swap?_eq_some_iff :
    kind.swap? old new = some after ↔ kind.Edited old (·.replace old new) after := by
  refine ⟨edited_of_swap?, fun h => ?_⟩
  cases hs : kind.swap? old new with
  | none => exact absurd h.mem (swap?_eq_none_iff.mp hs)
  | some after' => rw [(edited_of_swap? hs).unique h]

theorem take_eq_mandatory_iff : kind.take child = .mandatory ↔ kind.FirstMandatory child := by
  refine ⟨firstMandatory_of_take, fun h => ?_⟩
  cases ht : kind.take child with
  | absent => exact absurd h.mem (take_eq_absent_iff.mp ht)
  | mandatory => rfl
  | taken after => exact absurd h (edited_of_take ht).not_firstMandatory

theorem take_eq_taken_iff :
    kind.take child = .taken after ↔ kind.Edited child (·.erase child) after := by
  refine ⟨edited_of_take, fun h => ?_⟩
  cases ht : kind.take child with
  | absent => exact absurd h.mem (take_eq_absent_iff.mp ht)
  | mandatory => exact absurd (firstMandatory_of_take ht) h.not_firstMandatory
  | taken after' => rw [(edited_of_take ht).unique h]

theorem point_found_iff : (kind.point old new).1 = true ↔ old ∈ kind.children := by
  rw [point_eq, Option.isSome_iff_ne_none, ne_eq, swap?_eq_none_iff, not_not]

theorem point_eq_true_iff :
    kind.point old new = (true, after) ↔ kind.Edited old (·.replace old new) after := by
  rw [← swap?_eq_some_iff, point_eq]
  cases kind.swap? old new <;> simp

theorem point_eq_false_iff :
    kind.point old new = (false, after) ↔ old ∉ kind.children ∧ after = kind := by
  have hnone : kind.swap? old new = none ↔ old ∉ kind.children := swap?_eq_none_iff
  rw [← hnone, point_eq]
  cases kind.swap? old new <;> simp [eq_comm]

theorem clear_eq_absent_iff :
    kind.clear child = (.absent, after) ↔ child ∉ kind.children ∧ after = kind := by
  rw [← take_eq_absent_iff, clear_eq]
  cases kind.take child <;> simp [Taken.on, eq_comm]

theorem clear_eq_mandatory_iff :
    kind.clear child = (.mandatory, after) ↔ kind.FirstMandatory child ∧ after = kind := by
  rw [← take_eq_mandatory_iff, clear_eq]
  cases kind.take child <;> simp [Taken.on, eq_comm]

theorem clear_eq_taken_iff :
    kind.clear child = (.taken (), after) ↔ kind.Edited child (·.erase child) after := by
  rw [← take_eq_taken_iff, clear_eq]
  cases kind.take child <;> simp [Taken.on]

/-- The children of a node are what its slots hold, slot by slot. An exchange goes through exactly
where the old id is a child, and then the new one stands for its first occurrence. Taking a child
out fails where it is none, and where its first occurrence fills a slot that must not be empty.
Otherwise that occurrence is gone. What fails changes nothing, what goes through changes nothing
else, and writing to the node itself comes to the same as making a new one. -/
theorem slots_agree (kind after : NodeKind) (child new : NodeId) :
    kind.children = kind.slots.flatMap Slot.ids ∧
    kind.point child new = ((kind.swap? child new).isSome, (kind.swap? child new).getD kind) ∧
    kind.clear child = (kind.take child).on kind ∧
    ((kind.point child new).1 = true ↔ child ∈ kind.children) ∧
    (kind.point child new = (true, after) ↔ kind.Edited child (·.replace child new) after) ∧
    (kind.point child new = (false, after) ↔ child ∉ kind.children ∧ after = kind) ∧
    (kind.clear child = (.absent, after) ↔ child ∉ kind.children ∧ after = kind) ∧
    (kind.clear child = (.mandatory, after) ↔ kind.FirstMandatory child ∧ after = kind) ∧
    (kind.clear child = (.taken (), after) ↔ kind.Edited child (·.erase child) after) :=
  ⟨children_eq_slots kind, point_eq kind, clear_eq kind, point_found_iff, point_eq_true_iff,
    point_eq_false_iff, clear_eq_absent_iff, clear_eq_mandatory_iff, clear_eq_taken_iff⟩

/-- A call `f.f(x, f)` in which one name stands in up to three slots. -/
def selfCall (target : Option NodeId) : NodeKind := ⟨.methodInvocation, (target, 3, [5, 3], ())⟩

/-- The target comes first. With that gone the method's name is the next, which has to stay. -/
theorem slots_agree_selfCall :
    (selfCall (some 3)).Edited 3 (·.replace 3 7) (selfCall (some 7)) ∧
      (selfCall (some 3)).Edited 3 (·.erase 3) (selfCall none) ∧
      (selfCall none).FirstMandatory 3 := by
  obtain ⟨-, -, -, -, hpoint, -⟩ := slots_agree (selfCall (some 3)) (selfCall (some 7)) 3 7
  obtain ⟨-, -, -, -, -, -, -, -, htaken⟩ := slots_agree (selfCall (some 3)) (selfCall none) 3 7
  obtain ⟨-, -, -, -, -, -, -, hmandatory, -⟩ := slots_agree (selfCall none) (selfCall none) 3 7
  exact ⟨hpoint.mp (by decide), htaken.mp (by decide), (hmandatory.mp (by decide)).1⟩

end NodeKind
end SyntaxRecovery
