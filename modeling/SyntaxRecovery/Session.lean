import SyntaxRecovery.CorrectedStream
import SyntaxRecovery.Propagation.Propagate

/-! Recovery over one source text, as a parser hands it over. -/
namespace SyntaxRecovery

/-- The source, the decisions that recovery made on it, the problems reported for it and the tree
built from the corrected stream. -/
structure Session where
  config : RecoveryConfig := {}
  source : Option String := none
  edits : List EditRequest := []
  diagnostics : List Diagnostic := []
  tree : Tree := {}
  deriving DecidableEq

inductive SessionError where
  | noSource
  | stream (failure : StreamFailure)
  /-- The tree names a node that it does not have. -/
  | brokenTree
  deriving DecidableEq, Repr

def ScanFailure.message : ScanFailure → String
  | .lexical error => error.message
  | .midCharacter => "a word starts inside a character"

def StreamFailure.message : StreamFailure → String
  | .scan failure => failure.message
  | .endless => "the corrected stream has no end"

def SessionError.message : SessionError → String
  | .noSource => "session has no source text to replay"
  | .stream failure => s!"scan failed: {failure.message}"
  | .brokenTree => "the tree names a node that it does not have"

/-- What propagation over a session gives. The tokens are there when the session has a source. -/
structure Propagated where
  tree : Tree
  diagnostics : List Diagnostic
  tokens : Option (List Token)
  deriving DecidableEq

namespace Session

/-- A fresh log with the requests that can be recorded. -/
def editLog (session : Session) : EditLog :=
  (EditLog.ofConfig session.config).applyAll session.edits

/-- The corrected tokens of a source, and the log with what has been consumed. -/
def replayText (text : String) (log : EditLog) : Except SessionError (List Token × EditLog) :=
  match (CorrectedStream.ofText text log).tokens with
  | (.ok tokens, stream) => .ok (tokens, stream.log)
  | (.error failure, _) => .error (.stream failure)

/-- The corrected tokens of the session's source. -/
def replay (session : Session) : Except SessionError (List Token) := do
  let some text := session.source | .error .noSource
  return (← replayText text session.editLog).1

/-- Flags recovered nodes and marks diagnostics. A source is replayed first, so that its faults show
before the tree is touched. -/
def propagate (session : Session) : Except SessionError Propagated := do
  let (tokens, log) ← match session.source with
    | some text => do
      let (tokens, log) ← replayText text session.editLog
      pure (some tokens, log)
    | none => pure (none, session.editLog)
  match SyntaxRecovery.propagate session.tree session.diagnostics log with
  | some (tree, diagnostics) => return { tree, diagnostics, tokens }
  | none => .error .brokenTree

end Session

end SyntaxRecovery
