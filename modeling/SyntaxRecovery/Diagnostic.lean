import SyntaxRecovery.Named

/-! Problems that a front end reports. Only their category, their range and whether they have been
matched to the tree matter here. -/
namespace SyntaxRecovery

inductive ProblemCategory where
  | keywordNoSuggestion | keyword | parsingError | noSuggestion | insertTokenBefore
  | insertTokenAfter | deleteToken | deleteTokens | mergeTokens | invalidToken
  | misplacedConstruct | replaceTokens | noSuggestionForTokens | unexpectedEof
  | insertToComplete | insertToCompleteScope | insertToCompletePhrase | endOfSource
  | invalidHexa | invalidOctal | invalidCharacterConstant | invalidEscape | invalidInput
  | invalidUnicodeEscape | invalidFloat | nullSourceString | unterminatedString
  | unterminatedComment | invalidDigit
  | typeMismatch | undefinedName | undefinedMethod | unusedImport | unreachableCode | other
  deriving DecidableEq, Repr

namespace ProblemCategory

def name : ProblemCategory → String
  | .keywordNoSuggestion => "parsing_error_on_keyword_no_suggestion"
  | .keyword => "parsing_error_on_keyword"
  | .parsingError => "parsing_error"
  | .noSuggestion => "parsing_error_no_suggestion"
  | .insertTokenBefore => "parsing_error_insert_token_before"
  | .insertTokenAfter => "parsing_error_insert_token_after"
  | .deleteToken => "parsing_error_delete_token"
  | .deleteTokens => "parsing_error_delete_tokens"
  | .mergeTokens => "parsing_error_merge_tokens"
  | .invalidToken => "parsing_error_invalid_token"
  | .misplacedConstruct => "parsing_error_misplaced_construct"
  | .replaceTokens => "parsing_error_replace_tokens"
  | .noSuggestionForTokens => "parsing_error_no_suggestion_for_tokens"
  | .unexpectedEof => "parsing_error_unexpected_eof"
  | .insertToComplete => "parsing_error_insert_to_complete"
  | .insertToCompleteScope => "parsing_error_insert_to_complete_scope"
  | .insertToCompletePhrase => "parsing_error_insert_to_complete_phrase"
  | .endOfSource => "end_of_source"
  | .invalidHexa => "invalid_hexa"
  | .invalidOctal => "invalid_octal"
  | .invalidCharacterConstant => "invalid_character_constant"
  | .invalidEscape => "invalid_escape"
  | .invalidInput => "invalid_input"
  | .invalidUnicodeEscape => "invalid_unicode_escape"
  | .invalidFloat => "invalid_float"
  | .nullSourceString => "null_source_string"
  | .unterminatedString => "unterminated_string"
  | .unterminatedComment => "unterminated_comment"
  | .invalidDigit => "invalid_digit"
  | .typeMismatch => "type_mismatch"
  | .undefinedName => "undefined_name"
  | .undefinedMethod => "undefined_method"
  | .unusedImport => "unused_import"
  | .unreachableCode => "unreachable_code"
  | .other => "other"

/-- Categories with nothing to do with the shape of the text. -/
def semantic : List ProblemCategory :=
  [.typeMismatch, .undefinedName, .undefinedMethod, .unusedImport, .unreachableCode, .other]

def all : List ProblemCategory :=
  [.keywordNoSuggestion, .keyword, .parsingError, .noSuggestion, .insertTokenBefore,
   .insertTokenAfter, .deleteToken, .deleteTokens, .mergeTokens, .invalidToken,
   .misplacedConstruct, .replaceTokens, .noSuggestionForTokens, .unexpectedEof, .insertToComplete,
   .insertToCompleteScope, .insertToCompletePhrase, .endOfSource, .invalidHexa, .invalidOctal,
   .invalidCharacterConstant, .invalidEscape, .invalidInput, .invalidUnicodeEscape, .invalidFloat,
   .nullSourceString, .unterminatedString, .unterminatedComment, .invalidDigit] ++ semantic

instance : Named ProblemCategory := ⟨all, name⟩

/-- The category can be explained by syntax recovery or by malformed text. -/
def IsSyntactic (category : ProblemCategory) : Prop := category ∉ semantic

instance (category : ProblemCategory) : Decidable category.IsSyntactic :=
  inferInstanceAs (Decidable (¬ _))

end ProblemCategory

/-- A problem at the bytes `start` to `last`, both included. `used` says that it has been matched to
a region of the tree. -/
structure Diagnostic where
  category : ProblemCategory
  start : Nat
  last : Nat
  message : String
  used : Bool
  deriving DecidableEq, Repr

/-- One of the diagnostic's two ends lies between `start` and `last`, both included. -/
def Diagnostic.Touches (diagnostic : Diagnostic) (start last : Int) : Prop :=
  start ≤ diagnostic.start ∧ diagnostic.start ≤ last ∨
    start ≤ diagnostic.last ∧ diagnostic.last ≤ last

instance (diagnostic : Diagnostic) (start last : Int) :
    Decidable (diagnostic.Touches start last) :=
  inferInstanceAs (Decidable (_ ∨ _))

end SyntaxRecovery
