import SyntaxRecovery.Proofs.Tree.Arena

/-! The changes to a tree, made on the tree itself. Checks and writes come one after another, and
what has been written stays where a later check fails. The calls come to what the changes give that
make a new tree, and none of them fails once it has changed anything. -/
namespace SyntaxRecovery

section Slots
variable {old new child : NodeId}

/-- Points a slot that holds `old` to `new`, and says whether it did. -/
def FieldType.point (old new : NodeId) : (type : FieldType) → type.Value → Bool × type.Value
  | .child, id => if id = old then (true, new) else (false, id)
  | .optional, id? => if id? = some old then (true, some new) else (false, id?)
  | .list, ids => if old ∈ ids then (true, ids.replace old new) else (false, ids)
  | .switch, value | .truth, value => (false, value)
  | .text, value => (false, value)
  | .primitive, value => (false, value)
  | .assignmentOperator, value => (false, value)
  | .infixOperator, value => (false, value)
  | .postfixOperator, value => (false, value)

/-- Empties a slot that holds `child`, if it may be empty, and says how that went. -/
def FieldType.clear (child : NodeId) : (type : FieldType) → type.Value → Taken Unit × type.Value
  | .child, id => (if id = child then .mandatory else .absent, id)
  | .optional, id? => if id? = some child then (.taken (), none) else (.absent, id?)
  | .list, ids => if child ∈ ids then (.taken (), ids.erase child) else (.absent, ids)
  | .switch, value | .truth, value => (.absent, value)
  | .text, value => (.absent, value)
  | .primitive, value => (.absent, value)
  | .assignmentOperator, value => (.absent, value)
  | .infixOperator, value => (.absent, value)
  | .postfixOperator, value => (.absent, value)

/-- Looks at the fields in turn and writes to the first with such a slot. -/
def Record.point (old new : NodeId) : (fields : List Field) → Record fields → Bool × Record fields
  | [], values => (false, values)
  | field :: fields, (value, rest) =>
    match field.type.point old new value with
    | (true, value) => (true, (value, rest))
    | (false, value) =>
      let (found, rest) := point old new fields rest
      (found, (value, rest))

def Record.clear (child : NodeId) :
    (fields : List Field) → Record fields → Taken Unit × Record fields
  | [], values => (.absent, values)
  | field :: fields, (value, rest) =>
    match field.type.clear child value with
    | (.absent, value) =>
      let (outcome, rest) := clear child fields rest
      (outcome, (value, rest))
    | (outcome, value) => (outcome, (value, rest))

def NodeKind.point (old new : NodeId) (kind : NodeKind) : Bool × NodeKind :=
  let (found, values) := Record.point old new kind.shape.fields kind.values
  (found, ⟨kind.shape, values⟩)

def NodeKind.clear (child : NodeId) (kind : NodeKind) : Taken Unit × NodeKind :=
  let (outcome, values) := Record.clear child kind.shape.fields kind.values
  (outcome, ⟨kind.shape, values⟩)

/-- What came of taking something out, and what is there afterwards. -/
def Taken.on {α : Type} (before : α) : Taken α → Taken Unit × α
  | .absent => (.absent, before)
  | .mandatory => (.mandatory, before)
  | .taken rest => (.taken (), rest)

theorem FieldType.point_eq (type : FieldType) (value : type.Value) : type.point old new value =
    ((type.swap? old new value).isSome, (type.swap? old new value).getD value) := by
  cases type with
  | child | optional | list =>
    simp only [point, swap?]
    split <;> rfl
  | _ => rfl

theorem FieldType.clear_eq (type : FieldType) (value : type.Value) :
    type.clear child value = (type.take child value).on value := by
  cases type with
  | child | optional | list =>
    simp only [clear, take]
    split <;> rfl
  | _ => rfl

theorem Record.point_eq (fields : List Field) (values : Record fields) :
    point old new fields values =
    ((swap? old new fields values).isSome, (swap? old new fields values).getD values) := by
  induction fields with
  | nil => rfl
  | cons field fields ih =>
    obtain ⟨value, rest⟩ := values
    simp only [point, swap?, FieldType.point_eq, ih]
    cases field.type.swap? old new value with
    | some value' => rfl
    | none => cases swap? old new fields rest <;> rfl

theorem Record.clear_eq (fields : List Field) (values : Record fields) :
    clear child fields values = (take child fields values).on values := by
  induction fields with
  | nil => rfl
  | cons field fields ih =>
    obtain ⟨value, rest⟩ := values
    simp only [clear, take, FieldType.clear_eq, ih]
    cases field.type.take child value with
    | absent => cases take child fields rest <;> rfl
    | mandatory => rfl
    | taken value' => rfl

theorem NodeKind.point_eq (kind : NodeKind) :
    kind.point old new = ((kind.swap? old new).isSome, (kind.swap? old new).getD kind) := by
  simp only [point, swap?, Record.point_eq]
  cases Record.swap? old new kind.shape.fields kind.values <;> rfl

theorem NodeKind.clear_eq (kind : NodeKind) : kind.clear child = (kind.take child).on kind := by
  simp only [clear, take, Record.clear_eq]
  cases Record.take child kind.shape.fields kind.values <;> rfl

end Slots

/-- A call that works on a tree, with checks and writes in any order. -/
abbrev InPlace := EStateM TreeError Tree

namespace InPlace
variable {α β : Type}

/-- The node as it is now. -/
def node (id : NodeId) : InPlace Node := do
  match (← get).node? id with
  | some node => return node
  | none => throw (.unknownNode id)

def checkUnprotected (id : NodeId) : InPlace Unit := do
  if (← node id).isProtected then throw (.protectedNode id)

def checkDetached (id : NodeId) : InPlace Unit := do
  if let some parent := (← node id).parent then throw (.alreadyAttached id parent)

/-- Writes to the slots of a node. -/
def writeSlots (id : NodeId) (write : NodeKind → α × NodeKind) : InPlace α := do
  let (outcome, kind) := write (← node id).kind
  modify (·.setKind id kind)
  return outcome

def checkAdoption (parent : NodeId) (earlier : List NodeId) : List NodeId → InPlace Unit
  | [] => return
  | child :: rest => do
    checkDetached child
    if child ∈ earlier then throw (.alreadyAttached child parent)
    checkAdoption parent (child :: earlier) rest

def alloc (kind : NodeKind) (span : Span) : InPlace NodeId := do
  let id := (← get).size
  checkAdoption id [] kind.children
  kind.children.forM fun child => modify (·.setParent child (some id))
  modify (·.push { kind, span, flags := .parsed })
  return id

def placeholder (offset : Nat) : InPlace NodeId := do
  let id := (← get).size
  modify (·.push (.placeholder offset))
  return id

def setRoot (root : NodeId) : InPlace Unit := do
  checkDetached root
  modify ({ · with root := some root })

def detach (id : NodeId) : InPlace Unit := do
  if let some parent := (← node id).parent then
    checkUnprotected parent
    if (← writeSlots parent (·.clear id)) = .mandatory then
      let hole ← placeholder (← node id).span.start
      let _ ← writeSlots parent (·.point id hole)
      modify (·.setParent hole parent)
    modify (·.setParent id none)

def replaceChild (parent old new : NodeId) : InPlace Unit := do
  checkUnprotected parent
  checkDetached new
  let _ ← node old
  if (← get).isAncestorOrSelf new parent then throw (.cycle new parent)
  if ¬ (← writeSlots parent (·.point old new)) then throw (.notAChild old parent)
  modify (·.setParent old none)
  modify (·.setParent new parent)

def removeChild (parent child : NodeId) : InPlace Unit := do
  checkUnprotected parent
  let _ ← node child
  match ← writeSlots parent (·.clear child) with
  | .taken () => modify (·.setParent child none)
  | .mandatory => throw (.mandatoryChild child parent)
  | .absent => throw (.notAChild child parent)

/-- How a call ends that starts with `tree` and comes to `result`, where a failure changes
nothing. -/
def ending (tree : Tree) : Except TreeError (α × Tree) → EStateM.Result TreeError Tree α
  | .ok (a, after) => .ok a after
  | .error e => .error e tree

theorem ok_bind {a : α} {f : α → Except TreeError β} : Except.ok a >>= f = f a := rfl

section Run
variable {tree : Tree} {id parent child old new : NodeId} {holder : Node}

theorem run_node (tree : Tree) (id : NodeId) :
    (node id).run tree = ending tree ((tree.find id).map (·, tree)) := by
  unfold node Tree.find
  rw [EStateM.run_bind, EStateM.run_get]
  dsimp only
  cases tree.node? id <;> rfl

theorem run_checkUnprotected (tree : Tree) (id : NodeId) :
    (checkUnprotected id).run tree =
      ending tree ((tree.findUnprotected id).map fun _ => ((), tree)) := by
  unfold checkUnprotected Tree.findUnprotected
  rw [EStateM.run_bind, run_node]
  cases tree.find id with
  | error e => rfl
  | ok node =>
    simp only [Except.map, ending, bind, Except.bind]
    split <;> rfl

theorem run_checkDetached (tree : Tree) (id : NodeId) :
    (checkDetached id).run tree = ending tree ((tree.findDetached id).map fun _ => ((), tree)) := by
  unfold checkDetached Tree.findDetached
  rw [EStateM.run_bind, run_node]
  cases tree.find id with
  | error e => rfl
  | ok node =>
    simp only [Except.map, ending, bind, Except.bind]
    cases node.parent <;> rfl

theorem run_checkAdoption (tree : Tree) (parent : NodeId) (earlier ids : List NodeId) :
    (checkAdoption parent earlier ids).run tree =
      ending tree ((tree.checkAdoption parent earlier ids).map (·, tree)) := by
  induction ids generalizing earlier with
  | nil => rfl
  | cons child rest ih =>
    unfold checkAdoption Tree.checkAdoption
    rw [EStateM.run_bind, run_checkDetached]
    cases tree.findDetached child with
    | error e => rfl
    | ok node =>
      simp only [Except.map, ending, bind, Except.bind]
      split
      · rfl
      · exact ih (child :: earlier)

theorem setKind_self (hnode : tree.node? id = some holder) :
    tree.setKind id holder.kind = tree := by
  refine Tree.eq_of_node? rfl fun other => ?_
  simp only [Tree.setKind, Tree.node?_modify]
  split
  · next h =>
    subst h
    rw [hnode]
    rfl
  · rfl

theorem run_writeSlots (hnode : tree.node? id = some holder) (write : NodeKind → α × NodeKind) :
    (writeSlots id write).run tree =
      .ok (write holder.kind).1 (tree.setKind id (write holder.kind).2) := by
  unfold writeSlots
  rw [EStateM.run_bind, run_node, Tree.find_eq_ok_iff.mpr hnode]
  rfl

theorem run_setParents (tree : Tree) (ids : List NodeId) (link : Option NodeId) :
    (ids.forM fun child => (modify (·.setParent child link) : InPlace Unit)).run tree =
      .ok () (ids.foldl (fun tree child => tree.setParent child link) tree) := by
  induction ids generalizing tree with
  | nil => rfl
  | cons child rest ih =>
    unfold List.forM
    rw [EStateM.run_bind, EStateM.run_modify]
    exact ih (tree.setParent child link)

theorem run_alloc (tree : Tree) (kind : NodeKind) (span : Span) :
    (alloc kind span).run tree = ending tree (tree.alloc kind span) := by
  unfold alloc Tree.alloc
  rw [EStateM.run_bind, EStateM.run_get]
  dsimp only
  rw [EStateM.run_bind, run_checkAdoption]
  cases tree.checkAdoption tree.size [] kind.children with
  | error e => rfl
  | ok =>
    simp only [Except.map, ending]
    rw [EStateM.run_bind, run_setParents]
    rfl

theorem run_placeholder (tree : Tree) (offset : Nat) : (placeholder offset).run tree =
    .ok (tree.placeholder offset).1 (tree.placeholder offset).2 := rfl

theorem run_setRoot (tree : Tree) (root : NodeId) :
    (setRoot root).run tree = ending tree ((tree.setRoot root).map ((), ·)) := by
  unfold setRoot Tree.setRoot
  rw [EStateM.run_bind, run_checkDetached]
  cases tree.findDetached root <;> rfl

theorem run_detach (tree : Tree) (id : NodeId) :
    (detach id).run tree = ending tree ((tree.detach id).map ((), ·)) := by
  unfold detach Tree.detach
  rw [EStateM.run_bind, run_node]
  cases hid : tree.find id with
  | error e => rfl
  | ok child =>
    simp only [Except.map, ending, ok_bind]
    cases child.parent with
    | none => rfl
    | some parent =>
      dsimp only
      rw [EStateM.run_bind, run_checkUnprotected]
      cases hparent : tree.findUnprotected parent with
      | error e => rfl
      | ok holder =>
        have hholder := (Tree.findUnprotected_eq_ok_iff.mp hparent).1
        simp only [Except.map, ending, ok_bind]
        rw [EStateM.run_bind, run_writeSlots hholder, NodeKind.clear_eq]
        cases htake : holder.kind.take id with
        | absent =>
          simp only [Taken.on, setKind_self hholder]
          rfl
        | taken kind => rfl
        | mandatory =>
          have hplaced : (tree.placeholder child.span.start).2.node? parent = some holder := by
            rw [Tree.placeholder, Tree.node?_push,
              if_neg (Nat.ne_of_lt (Tree.lt_size_of_node? hholder)), hholder]
          simp only [Taken.on, setKind_self hholder]
          rw [if_pos trivial, EStateM.run_bind, run_node, hid]
          simp only [Except.map, ending]
          rw [EStateM.run_bind, run_placeholder]
          dsimp only
          rw [EStateM.run_bind, run_writeSlots hplaced, NodeKind.point_eq]
          rfl

theorem run_removeChild (tree : Tree) (parent child : NodeId) :
    (removeChild parent child).run tree =
      ending tree ((tree.removeChild parent child).map ((), ·)) := by
  unfold removeChild Tree.removeChild
  rw [EStateM.run_bind, run_checkUnprotected]
  cases hparent : tree.findUnprotected parent with
  | error e => rfl
  | ok holder =>
    have hholder := (Tree.findUnprotected_eq_ok_iff.mp hparent).1
    simp only [Except.map, ending]
    rw [EStateM.run_bind, run_node]
    cases tree.find child with
    | error e => rfl
    | ok node =>
      simp only [Except.map, ending]
      rw [EStateM.run_bind, run_writeSlots hholder, NodeKind.clear_eq]
      simp only [bind, Except.bind]
      cases holder.kind.take child with
      | absent | mandatory =>
        simp only [Taken.on, setKind_self hholder]
        rfl
      | taken kind => rfl

theorem run_replaceChild (tree : Tree) (parent old new : NodeId) :
    (replaceChild parent old new).run tree =
      ending tree ((tree.replaceChild parent old new).map ((), ·)) := by
  unfold replaceChild Tree.replaceChild
  rw [EStateM.run_bind, run_checkUnprotected]
  cases hparent : tree.findUnprotected parent with
  | error e => rfl
  | ok holder =>
    have hholder := (Tree.findUnprotected_eq_ok_iff.mp hparent).1
    simp only [Except.map, ending]
    rw [EStateM.run_bind, run_checkDetached]
    cases tree.findDetached new with
    | error e => rfl
    | ok newNode =>
      simp only [Except.map, ending]
      rw [EStateM.run_bind, run_node]
      cases tree.find old with
      | error e => rfl
      | ok oldNode =>
        simp only [Except.map, ending]
        rw [EStateM.run_bind, EStateM.run_get]
        simp only [ok_bind]
        split
        · rfl
        · rw [EStateM.run_bind, run_writeSlots hholder, NodeKind.point_eq]
          cases holder.kind.swap? old new with
          | none =>
            simp only [Option.getD_none, setKind_self hholder]
            rfl
          | some kind => rfl

end Run
end InPlace

namespace TreeEdit

def inPlace : TreeEdit → InPlace Unit
  | .alloc kind span => do
    let _ ← InPlace.alloc kind span
  | .placeholder offset => do
    let _ ← InPlace.placeholder offset
  | .setRoot root => InPlace.setRoot root
  | .detach id => InPlace.detach id
  | .replaceChild parent old new => InPlace.replaceChild parent old new
  | .removeChild parent child => InPlace.removeChild parent child
  | .addFlags id flags => modify (·.addFlags id flags)
  | .setFlags id flags => modify (·.setFlags id flags)

/-- The node whose slots the call is to change. -/
def holder? (tree : Tree) : TreeEdit → Option NodeId
  | .detach id => tree.parent? id
  | .replaceChild parent _ _ | .removeChild parent _ => some parent
  | .alloc _ _ | .placeholder _ | .setRoot _ | .addFlags _ _ | .setFlags _ _ => none

end TreeEdit

namespace Tree
variable {tree after : Tree} {id : NodeId} {node : Node} {edit : TreeEdit}

/-- A call on the tree itself ends as the one that makes a new tree. -/
theorem run_inPlace (tree : Tree) (edit : TreeEdit) :
    edit.inPlace.run tree = InPlace.ending tree ((edit.apply tree).map ((), ·)) := by
  cases edit with
  | alloc kind span =>
    simp only [TreeEdit.inPlace, TreeEdit.apply]
    rw [EStateM.run_bind, InPlace.run_alloc]
    cases tree.alloc kind span <;> rfl
  | placeholder | addFlags | setFlags => rfl
  | setRoot root => exact InPlace.run_setRoot tree root
  | detach id => exact InPlace.run_detach tree id
  | replaceChild parent old new => exact InPlace.run_replaceChild tree parent old new
  | removeChild parent child => exact InPlace.run_removeChild tree parent child

/-- The shape of a node and the values of its fields, its slots among them. -/
def kind? (tree : Tree) (id : NodeId) : Option NodeKind := (tree.node? id).map (·.kind)

theorem kind?_modify {f : Node → Node} (hf : ∀ node, (f node).kind = node.kind) (tree : Tree)
    (other id : NodeId) : (tree.modify other f).kind? id = tree.kind? id := by
  simp only [kind?, node?_modify]
  split
  · simp [Function.comp_def, hf]
  · rfl

theorem kind?_setParent (tree : Tree) (other id : NodeId) (link : Option NodeId) :
    (tree.setParent other link).kind? id = tree.kind? id :=
  kind?_modify (by intro; rfl) tree other id

theorem kind?_setKind_of_ne {other : NodeId} (tree : Tree) (kind : NodeKind) (h : other ≠ id) :
    (tree.setKind other kind).kind? id = tree.kind? id := by
  simp only [kind?, setKind, node?_modify, if_neg h]

theorem kind?_push_of_lt (tree : Tree) (node : Node) (h : id < tree.size) :
    (tree.push node).kind? id = tree.kind? id := by
  simp only [kind?, node?_push, if_neg (Nat.ne_of_lt h)]

theorem kind?_foldl_setParent (tree : Tree) (ids : List NodeId) (link : Option NodeId)
    (id : NodeId) :
    (ids.foldl (fun tree child => tree.setParent child link) tree).kind? id = tree.kind? id := by
  induction ids generalizing tree with
  | nil => rfl
  | cons child rest ih => rw [List.foldl_cons, ih, kind?_setParent]

/-- Taking a node out changes the slots of its parent alone. -/
theorem kind?_detach {child : NodeId} (hd : tree.detach child = .ok after) (hid : id < tree.size)
    (hparent : tree.parent? child ≠ some id) : after.kind? id = tree.kind? id := by
  simp only [detach, bind_eq_ok_iff, find_eq_ok_iff] at hd
  obtain ⟨node, hnode, hd⟩ := hd
  rw [Tree.parent?, hnode, Option.bind_some] at hparent
  split at hd
  · cases hd
    rfl
  · next parent hsome =>
    have hne : parent ≠ id := fun heq => hparent (hsome.trans (congrArg some heq))
    obtain ⟨holder, -, hd⟩ := bind_eq_ok_iff.mp hd
    cases hd
    rw [kind?_setParent]
    split
    · rfl
    · exact kind?_setKind_of_ne tree _ hne
    · rw [kind?_setParent, kind?_setKind_of_ne _ _ hne]
      exact kind?_push_of_lt tree _ hid

/-- A call changes the slots of no node but the one it is about. -/
theorem kind?_of_apply (ha : edit.apply tree = .ok after) (hid : id < tree.size)
    (hholder : edit.holder? tree ≠ some id) : after.kind? id = tree.kind? id := by
  cases edit with
  | alloc kind span =>
    obtain ⟨new, halloc⟩ := alloc_of_apply ha
    obtain ⟨-, -, hnew⟩ := bind_eq_ok_iff.mp halloc
    cases hnew
    rw [kind?_push_of_lt _ _ (by simpa using hid), kind?_foldl_setParent]
  | placeholder offset =>
    cases ha
    exact kind?_push_of_lt tree _ hid
  | setRoot root =>
    obtain ⟨node, -, hr⟩ := bind_eq_ok_iff.mp ha
    cases hr
    rfl
  | detach child => exact kind?_detach ha hid hholder
  | replaceChild parent old new =>
    have hne : parent ≠ id := fun heq => hholder (congrArg some heq)
    simp only [TreeEdit.apply, replaceChild, bind_eq_ok_iff] at ha
    obtain ⟨holder, -, -, -, -, -, ha⟩ := ha
    split at ha
    · cases ha
    · split at ha
      · cases ha
      · cases ha
        rw [kind?_setParent, kind?_setParent, kind?_setKind_of_ne tree _ hne]
  | removeChild parent child =>
    have hne : parent ≠ id := fun heq => hholder (congrArg some heq)
    simp only [TreeEdit.apply, removeChild, bind_eq_ok_iff] at ha
    obtain ⟨holder, -, -, -, ha⟩ := ha
    split at ha
    · cases ha
    · cases ha
    · cases ha
      rw [kind?_setParent, kind?_setKind_of_ne tree _ hne]
  | addFlags | setFlags =>
    cases ha
    exact kind?_modify (by intro; rfl) tree _ id

/-- A call that is to change the slots of a protected node is refused for that. -/
theorem apply_of_isProtected (hnode : tree.node? id = some node)
    (hprotected : node.isProtected = true)
    (hholder : edit.holder? tree = some id) : edit.apply tree = .error (.protectedNode id) := by
  have hrefused : tree.findUnprotected id = .error (.protectedNode id) := by
    simp [findUnprotected, find_eq_ok_iff.mpr hnode, hprotected, bind, Except.bind]
  cases edit with
  | detach child =>
    obtain ⟨node', hnode', hparent⟩ := Option.bind_eq_some_iff.mp hholder
    simp only [TreeEdit.apply, detach, find_eq_ok_iff.mpr hnode', InPlace.ok_bind, hparent,
      hrefused]
    rfl
  | replaceChild parent old new =>
    obtain rfl : parent = id := Option.some.inj hholder
    simp only [TreeEdit.apply, replaceChild, hrefused]
    rfl
  | removeChild parent child =>
    obtain rfl : parent = id := Option.some.inj hholder
    simp only [TreeEdit.apply, removeChild, hrefused]
    rfl
  | _ => cases hholder

theorem run_inPlace_eq_error_iff {e : TreeError} : edit.inPlace.run tree = .error e after ↔
    after = tree ∧ edit.apply tree = .error e := by
  rw [run_inPlace]
  cases edit.apply tree with
  | error e' => simp [InPlace.ending, Except.map, and_comm, eq_comm]
  | ok tree' => simp [InPlace.ending, Except.map]

theorem run_inPlace_eq_ok_iff :
    edit.inPlace.run tree = .ok () after ↔ edit.apply tree = .ok after := by
  rw [run_inPlace]
  cases edit.apply tree <;> simp [InPlace.ending, Except.map]

/-- A call that works on the tree itself ends as the one that makes a new tree, and where it fails
it has changed nothing. One that is to change the slots of a protected node always fails, and none
that goes through has changed them. -/
theorem unchanged_of_refused (tree : Tree) (edit : TreeEdit) :
    (∀ e after, edit.inPlace.run tree = .error e after ↔
      after = tree ∧ edit.apply tree = .error e) ∧
    (∀ after, edit.inPlace.run tree = .ok () after ↔ edit.apply tree = .ok after) ∧
    ∀ id node, tree.node? id = some node → node.isProtected = true →
      (edit.holder? tree = some id → edit.inPlace.run tree = .error (.protectedNode id) tree) ∧
      ∀ after, edit.inPlace.run tree = .ok () after → after.kind? id = some node.kind := by
  refine ⟨fun e after => run_inPlace_eq_error_iff, fun after => run_inPlace_eq_ok_iff,
    fun id node hnode hprotected => ⟨fun hholder => ?_, fun after hrun => ?_⟩⟩
  · exact run_inPlace_eq_error_iff.mpr ⟨rfl, apply_of_isProtected hnode hprotected hholder⟩
  · have ha := run_inPlace_eq_ok_iff.mp hrun
    have hholder : edit.holder? tree ≠ some id := by
      intro hholder
      rw [apply_of_isProtected hnode hprotected hholder] at ha
      cases ha
    rw [kind?_of_apply ha (lt_size_of_node? hnode) hholder, kind?, hnode, Option.map_some]

/-- A protected statement of a name, and a statement that is not protected. -/
def guarded : Tree where
  nodes := #[⟨.simpleName "x", ⟨0, 1⟩, .parsed, some 1⟩,
    ⟨⟨.expressionStatement, (0, ())⟩, ⟨0, 2⟩, .protect, none⟩,
    ⟨.simpleName "y", ⟨3, 4⟩, .parsed, some 3⟩,
    ⟨⟨.expressionStatement, (2, ())⟩, ⟨3, 5⟩, .parsed, none⟩]

/-- The name of the protected statement stays where it is. The other one is looked up in its slot
before it turns out that this must not be empty. -/
theorem unchanged_of_refused_guarded :
    (TreeEdit.detach 0).inPlace.run guarded = .error (.protectedNode 1) guarded ∧
      ∀ e after, (TreeEdit.removeChild 3 2).inPlace.run guarded = .error e after →
        e = .mandatoryChild 2 3 ∧ after = guarded := by
  obtain ⟨-, -, hprotected⟩ := unchanged_of_refused guarded (.detach 0)
  obtain ⟨hrefused, -, -⟩ := unchanged_of_refused guarded (.removeChild 3 2)
  refine ⟨(hprotected 1 _ rfl (by decide)).1 (by decide), fun e after hrun => ?_⟩
  obtain ⟨hafter, he⟩ := (hrefused e after).mp hrun
  have hmandatory :
      (TreeEdit.removeChild 3 2).apply guarded = .error (.mandatoryChild 2 3) := by decide
  rw [hmandatory] at he
  exact ⟨(Except.error.inj he).symm, hafter⟩

end Tree
end SyntaxRecovery
