/-! Byte ranges of the source text. -/
namespace SyntaxRecovery

/-- The bytes from `start` up to, not including, `stop`. A range may be inverted, and then holds
nothing. -/
structure Span where
  start : Nat
  stop : Nat
  deriving DecidableEq, Repr

namespace Span

/-- The range of no width at `offset`. -/
def emptyAt (offset : Nat) : Span := ⟨offset, offset⟩

def length (span : Span) : Nat := span.stop - span.start

def isEmpty (span : Span) : Bool := span.stop ≤ span.start

/-- The offset of the last byte; a range of no width at `s` ends at `s - 1`, which can be `-1`. -/
def last (span : Span) : Int := span.stop - 1

/-- The bytes `start` to `last`, both included, lie inside the span. -/
def Encloses (span : Span) (start last : Nat) : Prop :=
  span.start ≤ start ∧ last < span.stop

instance (span : Span) (start last : Nat) : Decidable (span.Encloses start last) :=
  inferInstanceAs (Decidable (_ ∧ _))

/-- Both ends have 32 bits. -/
structure FitsWords (span : Span) : Prop where
  start : span.start < Nat.pow 2 32
  stop : span.stop < Nat.pow 2 32

end Span

end SyntaxRecovery
