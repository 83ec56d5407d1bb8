import SyntaxRecovery.Config

/-! The decisions of a parser's error recovery, recorded as positional edits of the token stream.
Positions are offsets of bytes; the last byte of a range belongs to it. -/
namespace SyntaxRecovery

/-- Tokens to emit as soon as the stream has passed the byte `anchor`, at least one. -/
structure Insertion where
  first : TokenKind
  others : List TokenKind
  anchor : Nat
  /-- What the insertion completes, where the parser knows it. -/
  completes : Option TokenKind
  consumed : Bool := false
  deriving DecidableEq, Repr

/-- Tokens that stand for what the scanner finds from `start` to `last`, at least one. -/
structure Replacement where
  first : TokenKind
  others : List TokenKind
  start : Nat
  last : Nat
  consumed : Bool := false
  deriving DecidableEq, Repr

/-- A stretch to skip. -/
structure Removal where
  start : Nat
  last : Nat
  consumed : Bool := false
  deriving DecidableEq, Repr

/-- The tokens in the order in which they are emitted. -/
def Insertion.tokens (edit : Insertion) : List TokenKind := edit.first :: edit.others

/-- The tokens in the order in which they are emitted. -/
def Replacement.tokens (edit : Replacement) : List TokenKind := edit.first :: edit.others

/-- A recovery decision as a parser describes it. -/
inductive EditRequest where
  | insert (tokens : List TokenKind) (anchor : Nat) (completes : Option TokenKind)
  /-- One more token for the insertion at `index`, emitted after those it has. -/
  | insertAhead (token : TokenKind) (index : Nat)
  | replace (tokens : List TokenKind) (start last : Nat)
  | remove (start last : Nat)
  deriving DecidableEq, Repr

structure EditLog where
  config : RecoveryConfig := {}
  insertions : List Insertion := []
  replacements : List Replacement := []
  removals : List Removal := []
  deriving DecidableEq, Repr

/-- An edit of the bytes `start` to `last` applies to a token at `span` when it begins between
`previous` and the token, and holds all of the token. -/
def EditCovers (previous : Nat) (span : Span) (start last : Nat) : Prop :=
  previous ≤ start ∧ start ≤ span.start ∧ span.stop ≤ last + 1

instance (previous : Nat) (span : Span) (start last : Nat) :
    Decidable (EditCovers previous span start last) :=
  inferInstanceAs (Decidable (_ ∧ _ ∧ _))

namespace EditLog

def ofConfig (config : RecoveryConfig) : EditLog := { config }

def isEmpty (log : EditLog) : Bool :=
  log.insertions.isEmpty && log.replacements.isEmpty && log.removals.isEmpty

def setRecording (log : EditLog) (recording : Bool) : EditLog :=
  { log with config := { log.config with recording } }

/-- The tokens that may be recorded. -/
def synthesizable (log : EditLog) (tokens : List TokenKind) : List TokenKind :=
  tokens.filter fun kind => log.config.IsSynthesizable kind

/-- Records an insertion and gives its index. Nothing is recorded when recording is off, when no
token may be recorded, or when the completion is filtered. -/
def recordInsert (log : EditLog) (tokens : List TokenKind) (completes : Option TokenKind)
    (anchor : Nat) : Option (Nat × EditLog) :=
  match log.synthesizable tokens with
  | [] => none
  | first :: others =>
    if log.config.recording ∧ ∀ kind ∈ completes, ¬ log.config.FiltersCompletion kind then
      let edit : Insertion := { first, others, anchor, completes }
      some (log.insertions.length, { log with insertions := log.insertions ++ [edit] })
    else none

/-- Adds a token to the insertion at `index`, to be emitted after those it has. A token that may not
be recorded otherwise is taken here. -/
def insertAhead (log : EditLog) (token : TokenKind) (index : Nat) : Option EditLog :=
  if log.config.recording ∧ index < log.insertions.length then
    some { log with
      insertions := log.insertions.modify index fun edit =>
        { edit with others := edit.others ++ [token] } }
  else none

/-- Records a replacement and gives its index, under the conditions of an insertion. -/
def recordReplace (log : EditLog) (tokens : List TokenKind) (start last : Nat) :
    Option (Nat × EditLog) :=
  match log.synthesizable tokens with
  | [] => none
  | first :: others =>
    if log.config.recording then
      let edit : Replacement := { first, others, start, last }
      some (log.replacements.length, { log with replacements := log.replacements ++ [edit] })
    else none

def recordRemove (log : EditLog) (start last : Nat) : Option (Nat × EditLog) :=
  if log.config.recording then
    some (log.removals.length, { log with removals := log.removals ++ [{ start, last }] })
  else none

/-- Records what a request describes and gives the index of the edit that took it. -/
def apply (log : EditLog) : EditRequest → Option (Nat × EditLog)
  | .insert tokens anchor completes => log.recordInsert tokens completes anchor
  | .insertAhead token index => (log.insertAhead token index).map (index, ·)
  | .replace tokens start last => log.recordReplace tokens start last
  | .remove start last => log.recordRemove start last

/-- Applies the requests in order, passing over those that record nothing. -/
def applyAll (log : EditLog) (requests : List EditRequest) : EditLog :=
  requests.foldl (fun log request => ((log.apply request).map (·.2)).getD log) log

def consumeInsertion (log : EditLog) (index : Nat) : EditLog :=
  { log with insertions := log.insertions.modify index ({ · with consumed := true }) }

def consumeReplacement (log : EditLog) (index : Nat) : EditLog :=
  { log with replacements := log.replacements.modify index ({ · with consumed := true }) }

def consumeRemoval (log : EditLog) (index : Nat) : EditLog :=
  { log with removals := log.removals.modify index ({ · with consumed := true }) }

/-- Clears every consumed flag. -/
def resetConsumed (log : EditLog) : EditLog :=
  { log with
    insertions := log.insertions.map ({ · with consumed := false })
    replacements := log.replacements.map ({ · with consumed := false })
    removals := log.removals.map ({ · with consumed := false }) }

/-- The first insertion from index `lowest` on that is due at `position`, with its index. -/
def insertionDue? (log : EditLog) (position lowest : Nat) : Option (Insertion × Nat) :=
  log.insertions.zipIdx.find? fun (edit, index) =>
    edit.anchor + 1 = position ∧ lowest ≤ index

def replacementCovering? (log : EditLog) (previous : Nat) (span : Span) :
    Option (Replacement × Nat) :=
  log.replacements.zipIdx.find? fun (edit, _) => EditCovers previous span edit.start edit.last

def removalCovering? (log : EditLog) (previous : Nat) (span : Span) : Option (Removal × Nat) :=
  log.removals.zipIdx.find? fun (edit, _) => EditCovers previous span edit.start edit.last

theorem removalCovering?_some {log : EditLog} {previous : Nat} {span : Span} {edit : Removal}
    {index : Nat} (h : log.removalCovering? previous span = some (edit, index)) :
    edit ∈ log.removals ∧ EditCovers previous span edit.start edit.last :=
  ⟨List.fst_mem_of_mem_zipIdx (List.mem_of_find?_eq_some h), by simpa using List.find?_some h⟩

end EditLog

end SyntaxRecovery
