import SyntaxRecovery.Lexical.Lexeme
import SyntaxRecovery.Lexical.Trivia

/-! The scanner of uncorrected source text. It hands out one token at a call and can be moved to any
offset between calls. Offsets are natural numbers; in a source of less than 4 GiB they have 32
bits. -/
namespace SyntaxRecovery

/-- A place in the source, with the bytes from there on at hand. -/
structure Cursor (source : Bytes) where
  offset : Nat
  rest : Bytes
  rest_eq : rest = source.drop offset

namespace Cursor
variable {source : Bytes}

@[ext] theorem ext {a b : Cursor source} (h : a.offset = b.offset) : a = b := by
  obtain ⟨i, r, hr⟩ := a
  obtain ⟨j, s, hs⟩ := b
  obtain rfl : i = j := h
  subst hr hs
  rfl

def origin : Cursor source := ⟨0, source, rfl⟩

def advance (place : Cursor source) (length : Nat) : Cursor source :=
  ⟨place.offset + length, place.rest.drop length, by rw [place.rest_eq, List.drop_drop]⟩

def finish (place : Cursor source) : Cursor source := place.advance place.rest.length

/-- The place at `offset`, or the end of the source where that lies before it. -/
def seek (offset : Nat) : Cursor source :=
  ⟨min offset source.length, source.drop (min offset source.length), rfl⟩

end Cursor

/-- Why a scan gives no token. -/
inductive ScanFailure where
  | lexical (error : LexicalError)
  /-- A word was to start inside a character. -/
  | midCharacter
  deriving DecidableEq, Repr

/-- `opening` is where the last token was looked for, `place` where the scan goes on. -/
structure Scanner where
  source : Bytes
  opening : Cursor source
  place : Cursor source

namespace Scanner

def ofBytes (source : Bytes) : Scanner := ⟨source, .origin, .origin⟩

def ofText (text : String) : Scanner := ofBytes (Bytes.ofText text)

def position (scanner : Scanner) : Nat := scanner.place.offset

def tokenStart (scanner : Scanner) : Nat := scanner.opening.offset

def seek (scanner : Scanner) (offset : Nat) : Scanner := { scanner with place := .seek offset }

/-- The text between `opening` and `place`; no text when these are inverted or cut a character. -/
def tokenText (scanner : Scanner) : String :=
  Bytes.text (scanner.opening.rest.take (scanner.position - scanner.tokenStart))

/-- Scans one token. At the end of the source this is `endOfSource`, however often it is asked. -/
def next (scanner : Scanner) : Except ScanFailure TokenKind × Scanner :=
  match Trivia.skip 0 scanner.place.rest with
  | .error length =>
    (.error (.lexical ⟨.unterminatedComment, scanner.position + length⟩),
      { scanner with place := scanner.place.finish })
  | .ok length =>
    let start := scanner.place.advance length
    let stop (length : Nat) : Scanner :=
      { scanner with opening := start, place := start.advance length }
    match start.rest with
    | [] => (.ok .endOfSource, stop 0)
    | first :: rest =>
      match Lexeme.read first rest with
      | .token kind length => (.ok kind, stop length)
      | .failed fault offset length =>
        (.error (.lexical ⟨fault, start.offset + offset⟩), stop length)
      | .midCharacter => (.error .midCharacter, stop 0)

/-- The token that the scanner has just read. -/
def token (scanner : Scanner) (kind : TokenKind) : Token :=
  { kind, span := ⟨scanner.tokenStart, scanner.position⟩, text := scanner.tokenText,
    origin := .source }

/-- Every token but the last takes at least one byte. -/
theorem next_rest_lt {s t : Scanner} {kind : TokenKind} (h : s.next = (.ok kind, t))
    (hk : kind ≠ .endOfSource) : t.place.rest.length < s.place.rest.length := by
  unfold next at h
  split at h
  · cases h
  · next length _ =>
    dsimp only at h
    split at h
    · cases h
      exact absurd rfl hk
    · next first rest hr =>
      split at h
      · next kind' n hl =>
        cases h
        have hn := Lexeme.read_pos hl
        have hlen : (s.place.rest.drop length).length = rest.length + 1 := by
          simpa [Cursor.advance] using congrArg List.length hr
        simp only [Cursor.advance, List.length_drop] at hlen ⊢
        omega
      · cases h
      · cases h

/-- Every token from here on, with those already found before them in reverse. -/
def collect (found : List Token) (scanner : Scanner) : Except ScanFailure (List Token) :=
  match _h : scanner.next with
  | (.error failure, _) => .error failure
  | (.ok kind, scanner') =>
    let found := scanner'.token kind :: found
    if _hk : kind = .endOfSource then .ok found.reverse else collect found scanner'
termination_by scanner.place.rest.length
decreasing_by exact next_rest_lt _h _hk

end Scanner

/-- The tokens of a source text, the last one `endOfSource`. -/
def lex (text : String) : Except ScanFailure (List Token) := (Scanner.ofText text).collect []

end SyntaxRecovery
