import SyntaxRecovery.Token
import SyntaxRecovery.Tree.Shape

/-! The tokens that normally end a node. -/
namespace SyntaxRecovery

/-- The tokens that may end a node of the shape. An insertion on the node's last byte either
supplies one of them, and then the node is merely incomplete, or it does not, and then neither the
node nor those around it that end with it can be relied on. Shapes without an entry take no part in
this; `invalid` stands for an end without any token. -/
def NodeShape.terminators? : NodeShape → Option (List TokenKind)
  | .arrayAccess | .arrayType => some [.closeBracket]
  | .block | .initializer | .switchStatement | .typeDeclaration => some [.closeBrace]
  | .booleanLiteral => some [.falseKw, .trueKw]
  | .breakStatement | .continueStatement | .emptyStatement | .expressionStatement
  | .fieldDeclaration | .importDeclaration | .packageDeclaration | .returnStatement
  | .singleVariableDeclaration | .throwStatement | .variableDeclarationStatement =>
    some [.semicolon]
  | .characterLiteral => some [.characterLiteral]
  | .classInstanceCreation => some [.closeBrace, .closeParen]
  | .doStatement | .methodInvocation | .parenthesizedExpression => some [.closeParen]
  | .methodDeclaration => some [.invalid, .semicolon]
  | .nullLiteral => some [.nullKw]
  | .numberLiteral => some [.integerLiteral, .longLiteral, .floatingPointLiteral, .doubleLiteral]
  | .postfixExpression => some [.increment, .decrement]
  | .primitiveType =>
    some [.byteKw, .shortKw, .charKw, .intKw, .longKw, .floatKw, .booleanKw, .doubleKw, .voidKw]
  | .simpleName => some [.identifier]
  | .stringLiteral => some [.stringLiteral]
  | .switchCase => some [.colon]
  | .thisExpression => some [.thisKw]
  | _ => none

end SyntaxRecovery
