import SyntaxRecovery.Diagnostic
import SyntaxRecovery.EditLog
import SyntaxRecovery.Propagation.Terminators
import SyntaxRecovery.Tree.Basic

/-! Attribution of edits and diagnostics to the nodes that a walk leaves. Outside of blocks a
declaration is flagged for a diagnostic in it. Inside of blocks nodes are flagged for edits: a
removed or replaced stretch goes to the first node left that encloses it, an inserted token waits
until all nodes that end at one place have been left. -/
namespace SyntaxRecovery

/-- A token that an insertion put after the byte `offset`, to be claimed by one node. -/
structure Offer where
  kind : TokenKind
  offset : Nat
  claimed : Bool := false
  deriving DecidableEq, Repr

/-- A removed or replaced stretch, to be claimed by one node. -/
structure Stretch where
  start : Nat
  last : Nat
  claimed : Bool := false
  deriving DecidableEq, Repr

/-- A diagnostic that counts until it is settled. -/
structure Concern where
  diagnostic : Diagnostic
  settled : Bool := false
  deriving DecidableEq, Repr

structure Attribution where
  concerns : List Concern
  /-- Those of the latest insertion come first. -/
  offers : List Offer
  stretches : List Stretch
  /-- How many blocks are open. -/
  depth : Nat := 0
  /-- Where the node that was left last ends. -/
  lastStop : Option Nat := none
  /-- The nodes left since the place of their common end was reached, the latest first. -/
  pending : List NodeId := []
  deriving DecidableEq, Repr

/-- Shapes that a diagnostic outside of blocks may flag. -/
def NodeShape.isOutlineUnit : NodeShape → Bool
  | .compilationUnit | .packageDeclaration | .importDeclaration | .typeDeclaration
  | .fieldDeclaration | .methodDeclaration | .initializer | .annotationMarker | .annotationNormal
  | .annotationSingle | .block => true
  | _ => false

namespace Offer

/-- The token was put on the node's last byte. -/
def IsAtEnd (offer : Offer) (span : Span) : Prop := offer.offset + 1 = span.stop

/-- The token was put into the node, before its last byte. -/
def IsInside (offer : Offer) (span : Span) : Prop :=
  span.start ≤ offer.offset ∧ offer.offset + 1 < span.stop

instance (offer : Offer) (span : Span) : Decidable (offer.IsAtEnd span) :=
  inferInstanceAs (Decidable (_ = _))

instance (offer : Offer) (span : Span) : Decidable (offer.IsInside span) :=
  inferInstanceAs (Decidable (_ ∧ _))

def ofLog (log : EditLog) : List Offer :=
  log.insertions.reverse.flatMap fun edit => edit.tokens.map fun kind =>
    { kind, offset := edit.anchor }

/-- What a node ending at `span.stop` makes of the offers on its last byte: it claims them up to the
first that is among `expected`. `own` says that there was such a one, `foreign` that there was
another. -/
structure EndClaim where
  offers : List Offer
  own : Bool
  foreign : Bool

def claimAtEnd (expected : List TokenKind) (span : Span) : List Offer → EndClaim
  | [] => ⟨[], false, false⟩
  | offer :: rest =>
    if offer.claimed ∨ ¬ offer.IsAtEnd span then
      let claim := claimAtEnd expected span rest
      { claim with offers := offer :: claim.offers }
    else
      let claimed := { offer with claimed := true }
      if offer.kind ∈ expected then ⟨claimed :: rest, true, false⟩
      else
        let claim := claimAtEnd expected span rest
        ⟨claimed :: claim.offers, claim.own, true⟩

def claimInside (span : Span) (offer : Offer) : Offer :=
  { offer with claimed := offer.claimed || offer.IsInside span }

end Offer

namespace Stretch

def ofLog (log : EditLog) : List Stretch :=
  log.removals.map (fun edit => { start := edit.start, last := edit.last }) ++
    log.replacements.map fun edit => { start := edit.start, last := edit.last }

def claim (span : Span) (stretch : Stretch) : Stretch :=
  { stretch with claimed := stretch.claimed || span.Encloses stretch.start stretch.last }

end Stretch

namespace Concern

/-- The diagnostic still counts and has an end in the span. -/
def Hits (concern : Concern) (span : Span) : Prop :=
  concern.settled = false ∧ concern.diagnostic.category.IsSyntactic ∧
    concern.diagnostic.Touches span.start span.last

instance (concern : Concern) (span : Span) : Decidable (concern.Hits span) :=
  inferInstanceAs (Decidable (_ ∧ _ ∧ _))

/-- Diagnostics of other categories are settled on first sight, without being used. -/
def settle (span : Span) (concern : Concern) : Concern :=
  if concern.Hits span then
    { diagnostic := { concern.diagnostic with used := true }, settled := true }
  else { concern with settled := concern.settled || ¬ concern.diagnostic.category.IsSyntactic }

end Concern

namespace Tree

def flagRecovered (tree : Tree) (id : NodeId) : Option Tree :=
  (tree.node? id).map fun _ => tree.addFlags id .recovered

/-- Of a chain of nodes those up to the first that does not end at `stop`, that one included. -/
def upToOtherEnd (tree : Tree) (stop : Nat) : List NodeId → Option (List NodeId)
  | [] => some []
  | id :: rest => do
    let node ← tree.node? id
    if node.span.stop = stop then return id :: (← tree.upToOtherEnd stop rest) else return [id]

/-- Lets a node claim the tokens on its last byte. A token that does not belong there makes the
nodes around it unreliable, up to the first that ends elsewhere. -/
def claimAtEnd (reached : Tree × List Offer) (id : NodeId) : Option (Tree × List Offer) := do
  let (tree, offers) := reached
  let node ← tree.node? id
  match node.shape.terminators? with
  | none => return (tree, offers)
  | some expected =>
    let claim := Offer.claimAtEnd expected node.span offers
    let tree ← if claim.own then tree.flagRecovered id else some tree
    if claim.foreign then
      let around ← tree.upToOtherEnd node.span.stop (tree.ancestors id)
      let tree ← (id :: around).foldlM flagRecovered tree
      return (tree, claim.offers)
    else return (tree, claim.offers)

/-- Lets a node claim the tokens put into it. -/
def claimInside (reached : Tree × List Offer) (id : NodeId) : Option (Tree × List Offer) := do
  let (tree, offers) := reached
  let node ← tree.node? id
  if offers.any fun offer => ¬ offer.claimed ∧ offer.IsInside node.span then
    return (← tree.flagRecovered id, offers.map (Offer.claimInside node.span))
  else return (tree, offers)

end Tree

namespace Attribution

def start (log : EditLog) (diagnostics : List Diagnostic) : Attribution where
  concerns := diagnostics.map fun diagnostic => { diagnostic }
  offers := Offer.ofLog log
  stretches := Stretch.ofLog log

def InBody (state : Attribution) : Prop := 0 < state.depth

instance (state : Attribution) : Decidable state.InBody := inferInstanceAs (Decidable (_ < _))

/-- Some edit falls into the span. -/
def TouchesEdits (state : Attribution) (span : Span) : Prop :=
  (∃ offer ∈ state.offers, span.Encloses offer.offset offer.offset) ∨
    ∃ stretch ∈ state.stretches, span.Encloses stretch.start stretch.last

instance (state : Attribution) (span : Span) : Decidable (state.TouchesEdits span) :=
  inferInstanceAs (Decidable (_ ∨ _))

/-- Lets the pending nodes claim inserted tokens, those that end at them before those inside them. A
node is left after what it contains, so the first to be asked is the innermost. -/
def flush (tree : Tree) (state : Attribution) : Option (Tree × Attribution) := do
  let run := state.pending.reverse
  let reached ← run.foldlM Tree.claimAtEnd (tree, state.offers)
  let (tree, offers) ← run.foldlM Tree.claimInside reached
  return (tree, { state with offers, pending := [] })

def settle (state : Attribution) (span : Span) : Attribution :=
  { state with concerns := state.concerns.map (Concern.settle span) }

/-- Leaving a node outside of blocks. -/
def leaveOutline (tree : Tree) (id : NodeId) (node : Node) (state : Attribution) :
    Option (Tree × Attribution) := do
  if node.shape.isOutlineUnit then
    let tree ← if state.concerns.any fun concern => concern.Hits node.span
      then tree.flagRecovered id else some tree
    return (tree, state.settle node.span)
  else return (tree, state)

/-- Puts a node among those that wait for inserted tokens. Where it ends elsewhere than the last one
left, the nodes that have waited get theirs first. -/
def await (tree : Tree) (id : NodeId) (node : Node) (state : Attribution) :
    Option (Tree × Attribution) := do
  if state.offers.isEmpty then return (tree, state)
  let (tree, state) ← if state.lastStop = some node.span.stop then some (tree, state)
    else state.flush tree
  return (tree, { state with pending := id :: state.pending })

/-- Leaving a node inside of a block. -/
def leaveBody (tree : Tree) (id : NodeId) (node : Node) (state : Attribution) :
    Option (Tree × Attribution) := do
  let (tree, state) ← await tree id node (state.settle node.span)
  let claims (stretch : Stretch) : Bool :=
    ¬ stretch.claimed ∧ node.span.Encloses stretch.start stretch.last
  let tree ← if state.stretches.any claims then tree.flagRecovered id else some tree
  return (tree, { state with stretches := state.stretches.map (Stretch.claim node.span) })

/-- Attributes what there is to attribute to a node. -/
def leaveNode (tree : Tree) (id : NodeId) (node : Node) (state : Attribution) :
    Option (Tree × Attribution) := do
  let (tree, state) ← if state.InBody then leaveBody tree id node state
    else leaveOutline tree id node state
  return (tree, { state with lastStop := some node.span.stop })

end Attribution

end SyntaxRecovery
