import SyntaxRecovery.EditLog
import SyntaxRecovery.Scanner

/-! The corrected token stream: the tokens of a scanner with the edits of a log worked in. The
source text stays as it is; removed and replaced stretches are passed over by moving the scan on. -/
namespace SyntaxRecovery

inductive StreamFailure where
  | scan (failure : ScanFailure)
  /-- An edit that holds no byte is met again wherever the scan resumes, so the stream has no
  end. -/
  | endless
  deriving DecidableEq, Repr

structure CorrectedStream where
  scanner : Scanner
  log : EditLog
  /-- Synthetic kinds to emit before anything else. -/
  pending : List TokenKind := []
  pendingOrigin : TokenOrigin := .inserted
  pendingOffset : Nat := 0
  /-- Insertions below this index have been applied at the present position. -/
  insertFrom : Nat := 0
  /-- Where the last replacement or removal asked the scan to resume. The scan itself stops at the
  end of the source, so this keeps an edit there from being met again. -/
  resumeFloor : Nat := 0
  afterRemoval : Bool := false
  last : Option Token := none

namespace CorrectedStream

def ofScanner (scanner : Scanner) (log : EditLog) : CorrectedStream := { scanner, log }

def ofText (text : String) (log : EditLog) : CorrectedStream := ofScanner (.ofText text) log

def position (stream : CorrectedStream) : Nat := stream.scanner.position

/-- No edit that starts below this offset applies any more. -/
def editFloor (stream : CorrectedStream) : Nat := max stream.position stream.resumeFloor

/-- Puts kinds in front of the stream. -/
def setPending (stream : CorrectedStream) (kinds : List TokenKind) : CorrectedStream :=
  { stream with pending := kinds, pendingOrigin := .inserted, pendingOffset := stream.position }

/-- Starts over from the beginning of the source. -/
def rewind (stream : CorrectedStream) : CorrectedStream :=
  { stream with
    scanner := stream.scanner.seek 0
    log := stream.log.resetConsumed
    pending := []
    insertFrom := 0
    resumeFloor := 0
    afterRemoval := false
    last := none }

/-- Emits `kind` and keeps `others` for the calls to come. -/
def emit (stream : CorrectedStream) (origin : TokenOrigin) (offset : Nat) (kind : TokenKind)
    (others : List TokenKind) : Token × CorrectedStream :=
  let token := Token.synthetic kind (.emptyAt offset) origin
  (token, { stream with
    pending := others, pendingOrigin := origin, pendingOffset := offset, last := some token })

/-- Moves the scan to the byte after `last`. -/
def resumeAfter (stream : CorrectedStream) (last : Nat) : CorrectedStream :=
  { stream with scanner := stream.scanner.seek (last + 1), resumeFloor := last + 1 }

theorem resumeAfter_editFloor (stream : CorrectedStream) (last : Nat) :
    (stream.resumeAfter last).editFloor = last + 1 := by
  simp only [editFloor, position, resumeAfter, Scanner.position, Scanner.seek, Cursor.seek]
  omega

/-- How many removals can still apply. -/
def removalsAhead (stream : CorrectedStream) : Nat :=
  (stream.log.removals.map (·.start)).countP (stream.editFloor ≤ ·)

theorem countP_le_lt {starts : List Nat} {a b s : Nat} (hs : s ∈ starts) (ha : a ≤ s)
    (hb : s < b) : starts.countP (b ≤ ·) < starts.countP (a ≤ ·) := by
  induction starts with
  | nil => cases hs
  | cons x xs ih =>
    have hmono : xs.countP (b ≤ ·) ≤ xs.countP (a ≤ ·) :=
      List.countP_mono_left fun x _ hx => by simp only [decide_eq_true_eq] at hx ⊢; omega
    simp only [List.countP_cons, decide_eq_true_eq]
    rcases List.mem_cons.mp hs with rfl | hs
    · rw [if_pos ha, if_neg (by omega)]
      omega
    · have := ih hs
      split <;> split <;> omega

theorem map_start_modify (removals : List Removal) (index : Nat) :
    (removals.modify index ({ · with consumed := true })).map (·.start) =
      removals.map (·.start) := by
  induction removals generalizing index with
  | nil => cases index <;> rfl
  | cons r rs ih => cases index <;> simp_all

/-- Applies the insertion that is due at the present position, if there is one. -/
def insertDue? (stream : CorrectedStream) (afterRemoval : Bool) :
    Option (Token × CorrectedStream) :=
  (stream.log.insertionDue? stream.position stream.insertFrom).map fun (edit, index) =>
    emit
      { stream with
        log := stream.log.consumeInsertion index, insertFrom := index + 1, afterRemoval }
      .inserted stream.position edit.first edit.others

/-- The next token, where no synthetic one is left over. `afterRemoval` says that a removed stretch
has been passed since the last token. A removal that holds no byte applies only at the end of the
source, and there again and again. -/
def advance (stream : CorrectedStream) (afterRemoval : Bool) :
    Except StreamFailure Token × CorrectedStream :=
  match stream.insertDue? afterRemoval with
  | some (token, stream) => (.ok token, stream)
  | none =>
    match stream.scanner.next with
    | (.error failure, scanner) =>
      (.error (.scan failure), { stream with scanner, insertFrom := 0 })
    | (.ok kind, scanner) =>
      let token := scanner.token kind
      let floor := stream.editFloor
      let stream := { stream with scanner, insertFrom := 0 }
      match stream.log.replacementCovering? floor token.span with
      | some (edit, index) =>
        let (token, stream) := emit
          { stream.resumeAfter edit.last with
            log := stream.log.consumeReplacement index, afterRemoval }
          .replaced token.span.start edit.first edit.others
        (.ok token, stream)
      | none =>
        match _h : stream.log.removalCovering? floor token.span with
        | some (edit, index) =>
          let stream := { stream.resumeAfter edit.last with log := stream.log.consumeRemoval index }
          if _hr : edit.start ≤ edit.last then stream.advance true
          else
            match stream.insertDue? true with
            | some (token, stream) => (.ok token, stream)
            | none => (.error .endless, stream)
        | none => (.ok token, { stream with afterRemoval, last := some token })
termination_by stream.removalsAhead
decreasing_by
  obtain ⟨hm, hc⟩ := EditLog.removalCovering?_some _h
  simp only [removalsAhead, EditLog.consumeRemoval, map_start_modify]
  refine countP_le_lt (List.mem_map_of_mem hm) hc.1 ?_
  show edit.start < (resumeAfter _ edit.last).editFloor
  rw [resumeAfter_editFloor]
  omega

/-- The next token of the stream. -/
def next (stream : CorrectedStream) : Except StreamFailure Token × CorrectedStream :=
  match stream.pending with
  | kind :: others =>
    let (token, stream) := stream.emit stream.pendingOrigin stream.pendingOffset kind others
    (.ok token, stream)
  | [] => stream.advance false

/-- How far the stream is from the end of a source of `size` bytes. -/
def ahead (size : Nat) (stream : CorrectedStream) : Nat :=
  (size + 1 - stream.editFloor) + (size - stream.position)

def insertionsAhead (stream : CorrectedStream) : Nat :=
  stream.log.insertions.length - stream.insertFrom

/-- From `before` to `after` the stream has come closer to its end: it is further on in the source,
else among the insertions at one place, else among the kinds to emit. -/
def Progress (size : Nat) (before after : CorrectedStream) : Prop :=
  after.ahead size < before.ahead size ∨ after.ahead size = before.ahead size ∧
    (after.insertionsAhead < before.insertionsAhead ∨
      after.insertionsAhead = before.insertionsAhead ∧
        after.pending.length < before.pending.length)

instance (size : Nat) (before after : CorrectedStream) : Decidable (Progress size before after) :=
  inferInstanceAs (Decidable (_ ∨ _ ∧ (_ ∨ _ ∧ _)))

/-- The tokens up to the first `endOfSource`, with those already found before them in reverse. The
stream makes no progress when an edit that holds no byte applies at the end of the source. The
tokens from one such moment to the next are the same every time, so there is no end unless one of
them is `endOfSource`. `returns` says how often the stream may still come back there. -/
def collect (size returns : Nat) (found : List Token) (stream : CorrectedStream) :
    Except StreamFailure (List Token) × CorrectedStream :=
  match stream.next with
  | (.error failure, stream') => (.error failure, stream')
  | (.ok token, stream') =>
    let found := token :: found
    if token.kind = .endOfSource then (.ok found.reverse, stream')
    else if _h : Progress size stream stream' then collect size returns found stream'
    else
      match returns with
      | 0 => (.error .endless, stream')
      | returns + 1 => collect size returns found stream'
termination_by (returns, stream.ahead size, stream.insertionsAhead, stream.pending.length)
decreasing_by
  · simpa only [Prod.lex_def, Progress, Nat.lt_irrefl, true_and, false_or] using _h
  · exact Prod.Lex.left _ _ (Nat.lt_succ_self _)

/-- Drains the stream up to and including `endOfSource`. -/
def tokens (stream : CorrectedStream) : Except StreamFailure (List Token) × CorrectedStream :=
  stream.collect stream.scanner.source.length 1 []

/-- The text of the last token. -/
def tokenText (stream : CorrectedStream) : String :=
  match stream.last with
  | some token => if token.isSynthetic then token.text else stream.scanner.tokenText
  | none => stream.scanner.tokenText

def lastIsSynthetic (stream : CorrectedStream) : Bool := stream.last.any (·.isSynthetic)

def lastIsInserted (stream : CorrectedStream) : Bool := stream.last.any (·.origin == .inserted)

def lastIsReplaced (stream : CorrectedStream) : Bool := stream.last.any (·.origin == .replaced)

end CorrectedStream

end SyntaxRecovery
