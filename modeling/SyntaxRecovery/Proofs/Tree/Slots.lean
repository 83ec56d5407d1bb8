import Mathlib.Data.List.Perm.Basic
import SyntaxRecovery.Tree.Kind

/-! Changing the slots of a node, seen through the list of its children. A swap puts the new child
in for the old one, and a child that is taken out is erased. -/
namespace SyntaxRecovery

namespace Taken
variable {α β : Type} {f : α → β} {outcome : Taken α} {rest : β}

theorem map_eq_absent_iff : outcome.map f = .absent ↔ outcome = .absent := by
  cases outcome <;> simp [map]

theorem map_eq_mandatory_iff : outcome.map f = .mandatory ↔ outcome = .mandatory := by
  cases outcome <;> simp [map]

theorem map_eq_taken_iff : outcome.map f = .taken rest ↔ ∃ a, outcome = .taken a ∧ f a = rest := by
  cases outcome <;> simp [map]

end Taken

/-- Where the old member occurs, the new one comes in for it. -/
theorem replace_perm {old new : NodeId} {ids : List NodeId} (h : old ∈ ids) :
    (ids.replace old new).Perm (new :: ids.erase old) := by
  induction ids with
  | nil => cases h
  | cons id ids ih =>
    by_cases hid : id = old
    · subst hid
      simp
    · have hmem : old ∈ ids := (List.mem_cons.mp h).resolve_left (Ne.symm hid)
      have hcons : (id :: ids).replace old new = id :: ids.replace old new := by
        rw [List.replace_cons, beq_eq_false_iff_ne.mpr (Ne.symm hid)]
      rw [hcons, List.erase_cons_tail (by simpa using hid)]
      exact ((ih hmem).cons id).trans (List.Perm.swap new id _)

namespace FieldType
variable {old new child : NodeId} {type : FieldType} {value value' : type.Value}

theorem swap?_eq_none_iff : type.swap? old new value = none ↔ old ∉ type.children value := by
  cases type <;> simp [swap?, children]
  case child => exact ne_comm

theorem children_of_swap? (h : type.swap? old new value = some value') :
    old ∈ type.children value ∧ type.children value' = (type.children value).replace old new := by
  cases type <;> simp only [swap?, children, Option.ite_none_right_eq_some, reduceCtorEq,
    Option.some.injEq] at h ⊢
  case child =>
    obtain ⟨rfl, rfl⟩ := h
    simp
  case optional =>
    obtain ⟨rfl, rfl⟩ := h
    simp
  case list =>
    obtain ⟨hmem, rfl⟩ := h
    exact ⟨hmem, rfl⟩

theorem take_eq_absent_iff : type.take child value = .absent ↔ child ∉ type.children value := by
  cases type <;> simp [take, children]
  case child => exact ne_comm

theorem mem_of_take_mandatory (h : type.take child value = .mandatory) :
    child ∈ type.children value := by
  by_contra hmem
  cases (take_eq_absent_iff.mpr hmem).symm.trans h

theorem children_of_take (h : type.take child value = .taken value') :
    child ∈ type.children value ∧ type.children value' = (type.children value).erase child := by
  refine ⟨?_, ?_⟩
  · by_contra hmem
    cases (take_eq_absent_iff.mpr hmem).symm.trans h
  · cases type <;> simp only [take, children, reduceCtorEq] at h ⊢ <;> split at h <;> cases h
    case refine_2.optional.isTrue.refl hsome => simp [hsome]
    case refine_2.list.isTrue.refl => rfl

end FieldType

namespace Record
variable {old new child : NodeId} {field : Field} {fields : List Field}
    {values values' : Record fields}
  {value : field.type.Value} {written : Record (field :: fields)}

theorem swap?_eq_none_iff : swap? old new fields values = none ↔ old ∉ children fields values := by
  induction fields with
  | nil => simp [swap?, children]
  | cons field fields ih =>
    obtain ⟨value, rest⟩ := values
    simp only [swap?, children, List.mem_append, not_or]
    cases hv : field.type.swap? old new value with
    | some value' => simp [(FieldType.children_of_swap? hv).1]
    | none =>
      have hrest : (swap? old new fields rest).map (value, ·) = none ↔ old ∉ children fields rest :=
        Option.map_eq_none_iff.trans ih
      exact hrest.trans (and_iff_right (FieldType.swap?_eq_none_iff.mp hv)).symm

/-- The new child comes into the first field that has the old one. -/
theorem swap?_cases (h : swap? old new (field :: fields) (value, values) = some written) :
    (∃ value', field.type.swap? old new value = some value' ∧ written = (value', values)) ∨
      field.type.swap? old new value = none ∧
        ∃ values', swap? old new fields values = some values' ∧ written = (value, values') := by
  simp only [swap?] at h
  cases hv : field.type.swap? old new value with
  | some value' =>
    rw [hv] at h
    exact .inl ⟨value', rfl, (Option.some.inj h).symm⟩
  | none =>
    rw [hv] at h
    obtain ⟨values', hr, rfl⟩ := Option.map_eq_some_iff.mp h
    exact .inr ⟨rfl, values', hr, rfl⟩

theorem children_of_swap? (h : swap? old new fields values = some values') :
    old ∈ children fields values ∧
      children fields values' = (children fields values).replace old new := by
  induction fields with
  | nil => cases h
  | cons field fields ih =>
    obtain ⟨value, rest⟩ := values
    rcases swap?_cases h with ⟨value', hv, rfl⟩ | ⟨hv, rest', hr, rfl⟩
    · obtain ⟨hmem, heq⟩ := FieldType.children_of_swap? hv
      exact ⟨List.mem_append_left _ hmem,
        (congrArg (· ++ children fields rest) heq).trans (List.replace_append_left hmem).symm⟩
    · obtain ⟨hmem, heq⟩ := ih hr
      have hvalue := FieldType.swap?_eq_none_iff.mp hv
      exact ⟨List.mem_append_right _ hmem, (congrArg (field.type.children value ++ ·) heq).trans
        (List.replace_append_right hvalue).symm⟩

theorem take_eq_absent_iff :
    take child fields values = .absent ↔ child ∉ children fields values := by
  induction fields with
  | nil => simp [take, children]
  | cons field fields ih =>
    obtain ⟨value, rest⟩ := values
    simp only [take, children, List.mem_append, not_or]
    cases hv : field.type.take child value with
    | absent =>
      have hrest : (take child fields rest).map (value, ·) = .absent ↔
          child ∉ children fields rest :=
        Taken.map_eq_absent_iff.trans ih
      exact hrest.trans (and_iff_right (FieldType.take_eq_absent_iff.mp hv)).symm
    | mandatory => simp [FieldType.mem_of_take_mandatory hv]
    | taken value' => simp [(FieldType.children_of_take hv).1]

/-- The child is taken out of the first field that has it. -/
theorem take_cases (h : take child (field :: fields) (value, values) = .taken written) :
    (∃ value', field.type.take child value = .taken value' ∧ written = (value', values)) ∨
      field.type.take child value = .absent ∧
        ∃ values', take child fields values = .taken values' ∧ written = (value, values') := by
  simp only [take] at h
  cases hv : field.type.take child value with
  | absent =>
    rw [hv] at h
    obtain ⟨values', hr, rfl⟩ := Taken.map_eq_taken_iff.mp h
    exact .inr ⟨rfl, values', hr, rfl⟩
  | mandatory =>
    rw [hv] at h
    cases h
  | taken value' =>
    rw [hv] at h
    cases h
    exact .inl ⟨value', rfl, rfl⟩

theorem take_mandatory_cases (h : take child (field :: fields) (value, values) = .mandatory) :
    field.type.take child value = .mandatory ∨
      field.type.take child value = .absent ∧ take child fields values = .mandatory := by
  simp only [take] at h
  cases hv : field.type.take child value with
  | absent =>
    rw [hv] at h
    exact .inr ⟨rfl, Taken.map_eq_mandatory_iff.mp h⟩
  | mandatory => exact .inl rfl
  | taken value' =>
    rw [hv] at h
    cases h

theorem children_of_take (h : take child fields values = .taken values') :
    child ∈ children fields values ∧
      children fields values' = (children fields values).erase child := by
  induction fields with
  | nil => cases h
  | cons field fields ih =>
    obtain ⟨value, rest⟩ := values
    rcases take_cases h with ⟨value', hv, rfl⟩ | ⟨hv, rest', hr, rfl⟩
    · obtain ⟨hmem, heq⟩ := FieldType.children_of_take hv
      exact ⟨List.mem_append_left _ hmem,
        (congrArg (· ++ children fields rest) heq).trans (List.erase_append_left _ hmem).symm⟩
    · obtain ⟨hmem, heq⟩ := ih hr
      have hvalue := FieldType.take_eq_absent_iff.mp hv
      exact ⟨List.mem_append_right _ hmem, (congrArg (field.type.children value ++ ·) heq).trans
        (List.erase_append_right _ hvalue).symm⟩

end Record

namespace NodeKind
variable {kind kind' : NodeKind} {old new child : NodeId}

theorem swap?_eq_none_iff : kind.swap? old new = none ↔ old ∉ kind.children := by
  rw [swap?, Option.map_eq_none_iff]
  exact Record.swap?_eq_none_iff

theorem mem_of_swap? (h : kind.swap? old new = some kind') : old ∈ kind.children := by
  obtain ⟨values, hv, rfl⟩ := Option.map_eq_some_iff.mp h
  exact (Record.children_of_swap? hv).1

theorem children_of_swap? (h : kind.swap? old new = some kind') :
    kind'.children.Perm (new :: kind.children.erase old) := by
  obtain ⟨values, hv, rfl⟩ := Option.map_eq_some_iff.mp h
  obtain ⟨hmem, heq⟩ := Record.children_of_swap? hv
  exact (List.Perm.of_eq heq).trans (replace_perm hmem)

theorem take_eq_absent_iff : kind.take child = .absent ↔ child ∉ kind.children := by
  rw [take, Taken.map_eq_absent_iff]
  exact Record.take_eq_absent_iff

theorem mem_of_take (h : kind.take child ≠ .absent) : child ∈ kind.children :=
  not_not.mp (mt take_eq_absent_iff.mpr h)

theorem children_of_take (h : kind.take child = .taken kind') :
    kind'.children = kind.children.erase child := by
  obtain ⟨values, hv, rfl⟩ := Taken.map_eq_taken_iff.mp h
  exact (Record.children_of_take hv).2

end NodeKind
end SyntaxRecovery
