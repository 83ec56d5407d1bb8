import SyntaxRecovery.Named
import SyntaxRecovery.Span

/-! Tokens of the source language and of the corrected stream. -/
namespace SyntaxRecovery

/-- The terminals of the grammar. `restrictedRecord` and `restrictedYield` are the contextual words
that only a parser hands out; `invalid` stands for no token at all. -/
inductive TokenKind where
  | identifier | restrictedRecord | restrictedYield
  | integerLiteral | longLiteral | floatingPointLiteral | doubleLiteral | characterLiteral
  | stringLiteral
  | abstractKw | booleanKw | breakKw | byteKw | caseKw | charKw | classKw | continueKw
  | defaultKw | doKw | doubleKw | elseKw | enumKw | extendsKw | falseKw | finalKw | floatKw
  | forKw | ifKw | implementsKw | importKw | instanceofKw | intKw | interfaceKw | longKw | newKw
  | nullKw | packageKw | privateKw | protectedKw | publicKw | returnKw | shortKw | staticKw
  | superKw | switchKw | thisKw | throwKw | trueKw | voidKw | whileKw
  | openBrace | closeBrace | openBracket | closeBracket | openParen | closeParen | semicolon
  | comma | dot | colon | question | atSign | arrow | assign | equal | notEqual | less
  | lessEqual | greater | greaterEqual | plus | minus | star | slash | percent | increment
  | decrement | bang | tilde | conditionalAnd | conditionalOr | ampersand | bar | caret
  | plusAssign | minusAssign | starAssign | slashAssign | invalid | endOfSource
  deriving DecidableEq, Repr

namespace TokenKind

def name : TokenKind → String
  | .identifier => "identifier"
  | .restrictedRecord => "restricted_record"
  | .restrictedYield => "restricted_yield"
  | .integerLiteral => "integer_literal"
  | .longLiteral => "long_literal"
  | .floatingPointLiteral => "floating_point_literal"
  | .doubleLiteral => "double_literal"
  | .characterLiteral => "character_literal"
  | .stringLiteral => "string_literal"
  | .abstractKw => "abstract"
  | .booleanKw => "boolean"
  | .breakKw => "break"
  | .byteKw => "byte"
  | .caseKw => "case"
  | .charKw => "char"
  | .classKw => "class"
  | .continueKw => "continue"
  | .defaultKw => "default"
  | .doKw => "do"
  | .doubleKw => "double"
  | .elseKw => "else"
  | .enumKw => "enum"
  | .extendsKw => "extends"
  | .falseKw => "false"
  | .finalKw => "final"
  | .floatKw => "float"
  | .forKw => "for"
  | .ifKw => "if"
  | .implementsKw => "implements"
  | .importKw => "import"
  | .instanceofKw => "instanceof"
  | .intKw => "int"
  | .interfaceKw => "interface"
  | .longKw => "long"
  | .newKw => "new"
  | .nullKw => "null"
  | .packageKw => "package"
  | .privateKw => "private"
  | .protectedKw => "protected"
  | .publicKw => "public"
  | .returnKw => "return"
  | .shortKw => "short"
  | .staticKw => "static"
  | .superKw => "super"
  | .switchKw => "switch"
  | .thisKw => "this"
  | .throwKw => "throw"
  | .trueKw => "true"
  | .voidKw => "void"
  | .whileKw => "while"
  | .openBrace => "l_brace"
  | .closeBrace => "r_brace"
  | .openBracket => "l_bracket"
  | .closeBracket => "r_bracket"
  | .openParen => "l_paren"
  | .closeParen => "r_paren"
  | .semicolon => "semicolon"
  | .comma => "comma"
  | .dot => "dot"
  | .colon => "colon"
  | .question => "question"
  | .atSign => "at"
  | .arrow => "arrow"
  | .assign => "eq"
  | .equal => "eq_eq"
  | .notEqual => "not_eq"
  | .less => "lt"
  | .lessEqual => "lt_eq"
  | .greater => "gt"
  | .greaterEqual => "gt_eq"
  | .plus => "plus"
  | .minus => "minus"
  | .star => "star"
  | .slash => "slash"
  | .percent => "percent"
  | .increment => "plus_plus"
  | .decrement => "minus_minus"
  | .bang => "not"
  | .tilde => "tilde"
  | .conditionalAnd => "and_and"
  | .conditionalOr => "or_or"
  | .ampersand => "and"
  | .bar => "or"
  | .caret => "xor"
  | .plusAssign => "plus_eq"
  | .minusAssign => "minus_eq"
  | .starAssign => "star_eq"
  | .slashAssign => "slash_eq"
  | .invalid => "invalid"
  | .endOfSource => "eof"

/-- The reserved words. Each is written as its name is. -/
def keywords : List TokenKind :=
  [.abstractKw, .booleanKw, .breakKw, .byteKw, .caseKw, .charKw, .classKw, .continueKw,
   .defaultKw, .doKw, .doubleKw, .elseKw, .enumKw, .extendsKw, .falseKw, .finalKw, .floatKw,
   .forKw, .ifKw, .implementsKw, .importKw, .instanceofKw, .intKw, .interfaceKw, .longKw, .newKw,
   .nullKw, .packageKw, .privateKw, .protectedKw, .publicKw, .returnKw, .shortKw, .staticKw,
   .superKw, .switchKw, .thisKw, .throwKw, .trueKw, .voidKw, .whileKw]

def all : List TokenKind :=
  [.identifier, .restrictedRecord, .restrictedYield, .integerLiteral, .longLiteral,
   .floatingPointLiteral, .doubleLiteral, .characterLiteral, .stringLiteral] ++
  keywords ++
  [.openBrace, .closeBrace, .openBracket, .closeBracket, .openParen, .closeParen, .semicolon,
   .comma, .dot, .colon, .question, .atSign, .arrow, .assign, .equal, .notEqual, .less,
   .lessEqual, .greater, .greaterEqual, .plus, .minus, .star, .slash, .percent, .increment,
   .decrement, .bang, .tilde, .conditionalAnd, .conditionalOr, .ampersand, .bar, .caret,
   .plusAssign, .minusAssign, .starAssign, .slashAssign, .invalid, .endOfSource]

instance : Named TokenKind := ⟨all, name⟩

/-- The reserved word that `word` spells. -/
def keyword? (word : String) : Option TokenKind :=
  keywords.find? (·.name == word)

end TokenKind

/-- Where a token of the corrected stream came from: the source text, a recorded insertion, or a
recorded replacement. -/
inductive TokenOrigin where
  | source | inserted | replaced
  deriving DecidableEq, Repr

namespace TokenOrigin

def name : TokenOrigin → String
  | .source => "source"
  | .inserted => "inserted"
  | .replaced => "replaced"

instance : Named TokenOrigin := ⟨[.source, .inserted, .replaced], name⟩

end TokenOrigin

/-- The text of a name that recovery made up, by which later phases tell it from a written one. -/
def missingIdentifier : String := "$missing$"

structure Token where
  kind : TokenKind
  span : Span
  text : String
  origin : TokenOrigin
  deriving DecidableEq, Repr

namespace Token

/-- A token that recovery made up: an identifier carries `missingIdentifier`, any other kind no
text. -/
def synthetic (kind : TokenKind) (span : Span) (origin : TokenOrigin) : Token :=
  { kind, span, origin, text := if kind = .identifier then missingIdentifier else "" }

def isSynthetic (token : Token) : Bool := token.origin != .source

def isMissingIdentifier (token : Token) : Bool :=
  token.kind == .identifier && token.isSynthetic && token.text == missingIdentifier

end Token

end SyntaxRecovery
