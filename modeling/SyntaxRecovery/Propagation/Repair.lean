import SyntaxRecovery.Tree.Edit

/-! Repairs of shapes that recovery is known to get wrong. Each checks its own conditions and leaves
the tree alone where they do not hold. None is the answer where an id is unknown to the tree. -/
namespace SyntaxRecovery.Tree

/-- Makes the changes in order up to the first that is refused, and tells whether all were made. -/
def attempt (tree : Tree) : List (Tree → Except TreeError Tree) → Tree × Bool
  | [] => (tree, true)
  | change :: rest =>
    match change tree with
    | .ok tree => tree.attempt rest
    | .error _ => (tree, false)

/-- A recovered statement `x = <missing>;` becomes `x;`. -/
def collapseAssignment (tree : Tree) (id : NodeId) : Option Tree := do
  let statement ← tree.node? id
  match statement.kind with
  | ⟨.expressionStatement, (expression, _)⟩ =>
    let inner ← tree.node? expression
    match inner.kind with
    | ⟨.assignment, (left, _, right, _)⟩ =>
      let rightNode ← tree.node? right
      if statement.isRecovered ∧ rightNode.isMissingName ∧ ¬ statement.isProtected ∧
          ¬ inner.isProtected then
        let (tree, done) := tree.attempt
          [(·.detach left), (·.replaceChild id expression left), (·.detach right)]
        return if done then tree.addFlags left .recovered else tree
      else return tree
    | _ => return tree
  | _ => return tree

/-- The node declares a variable whose name recovery made up. -/
def declaresMissing (tree : Tree) (fragment : NodeId) : Option Bool := do
  let node ← tree.node? fragment
  match node.kind with
  | ⟨.variableDeclarationFragment, (name, _)⟩ => return (← tree.node? name).isMissingName
  | _ => return false

/-- Drops from the header of a `for` statement what its only initializer declares under a missing
name, and the initializer with its last variable. -/
def dropForDeclaration (tree : Tree) (id : NodeId) : Option Tree := do
  let statement ← tree.node? id
  match statement.kind with
  | ⟨.forStatement, ([declaration], _)⟩ =>
    let header ← tree.node? declaration
    match header.kind with
    | ⟨.variableDeclarationExpression, (_, fragments, _)⟩ =>
      let missing ← fragments.filterM tree.declaresMissing
      if missing.isEmpty then return tree
      let (tree, done) := tree.attempt (missing.map fun fragment tree =>
        tree.removeChild declaration fragment)
      if ¬ done then return tree
      let tree := tree.addFlags declaration .recovered
      if (tree.children declaration).length = 1 then
        return (tree.attempt [(·.removeChild id declaration)]).1
      else return tree
    | _ => return tree
  | _ => return tree

/-- Turns a fragment `x = <missing>` with a recovered initializer into `x`. -/
def clearInitializer (tree : Tree) (fragment : NodeId) : Option Tree := do
  let node ← tree.node? fragment
  match node.kind with
  | ⟨.variableDeclarationFragment, (_, some initializer, _)⟩ =>
    let value ← tree.node? initializer
    if value.isRecovered ∧ value.isMissingName then
      let (tree, done) := tree.attempt [(·.removeChild fragment initializer)]
      return if done then tree.addFlags fragment .recovered else tree
    else return tree
  | _ => return tree

/-- Clears the missing initializers of a variable declaration statement. -/
def clearInitializers (tree : Tree) (id : NodeId) : Option Tree := do
  let statement ← tree.node? id
  match statement.kind with
  | ⟨.variableDeclarationStatement, (_, fragments, _)⟩ => fragments.foldlM clearInitializer tree
  | _ => return tree

/-- Flags an annotation that ends where its last value does, so that its closing parenthesis was
never there. -/
def flagTruncated (tree : Tree) (id : NodeId) : Option Tree := do
  let node ← tree.node? id
  let lastValue := match node.kind with
    | ⟨.annotationNormal, (_, values, _)⟩ => values.getLast?
    | ⟨.annotationSingle, (_, value, _)⟩ => some value
    | _ => none
  match lastValue with
  | none => return tree
  | some value =>
    let inner ← tree.node? value
    return if inner.span.stop = node.span.stop then tree.addFlags id .recovered else tree

end SyntaxRecovery.Tree
