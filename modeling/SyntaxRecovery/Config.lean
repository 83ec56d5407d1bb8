import SyntaxRecovery.Token

/-! What recovery may put into the token stream. -/
namespace SyntaxRecovery

/-- The language level of the source. -/
inductive SourceLevel where
  | java8 | java11 | java17 | java21
  deriving DecidableEq, Repr

namespace SourceLevel

def name : SourceLevel → String
  | .java8 => "java8"
  | .java11 => "java11"
  | .java17 => "java17"
  | .java21 => "java21"

instance : Named SourceLevel := ⟨[.java8, .java11, .java17, .java21], name⟩

/-- The contextual words that must not be made up: later phases take them for identifiers, so one
would silently change the meaning. -/
def softKeywords : SourceLevel → List TokenKind
  | .java8 | .java11 => [.restrictedRecord, .restrictedYield]
  | .java17 | .java21 => [.restrictedRecord]

end SourceLevel

structure RecoveryConfig where
  sourceLevel : SourceLevel := .java21
  /-- Kinds that must not be made up, beside the level's contextual words. -/
  extraExcluded : List TokenKind := []
  /-- An insertion that completes one of these kinds is not recorded. -/
  completionFilter : List TokenKind := []
  /-- Whether edits are recorded at all. -/
  recording : Bool := true
  deriving DecidableEq, Repr

namespace RecoveryConfig

/-- `kind` may stand in a recorded insertion or replacement. -/
def IsSynthesizable (config : RecoveryConfig) (kind : TokenKind) : Prop :=
  kind ∉ config.sourceLevel.softKeywords ∧ kind ∉ config.extraExcluded

instance (config : RecoveryConfig) (kind : TokenKind) : Decidable (config.IsSynthesizable kind) :=
  inferInstanceAs (Decidable (_ ∧ _))

def FiltersCompletion (config : RecoveryConfig) (kind : TokenKind) : Prop :=
  kind ∈ config.completionFilter

instance (config : RecoveryConfig) (kind : TokenKind) : Decidable (config.FiltersCompletion kind) :=
  inferInstanceAs (Decidable (_ ∈ _))

end RecoveryConfig

end SyntaxRecovery
