import SyntaxRecovery.Named

/-! The shapes of syntax-tree nodes and the fields that a node of each shape has. -/
namespace SyntaxRecovery

/-- A node is named by its index in the tree's list of nodes. -/
abbrev NodeId := Nat

inductive AssignmentOperator where
  | assign | plusAssign | minusAssign | timesAssign | divideAssign
  deriving DecidableEq, Repr

def AssignmentOperator.name : AssignmentOperator → String
  | .assign => "assign"
  | .plusAssign => "plus_assign"
  | .minusAssign => "minus_assign"
  | .timesAssign => "times_assign"
  | .divideAssign => "divide_assign"

instance : Named AssignmentOperator where
  all :=
    [.assign, .plusAssign, .minusAssign, .timesAssign, .divideAssign]
  name := AssignmentOperator.name

inductive InfixOperator where
  | times | divide | remainder | plus | minus | less | greater | lessEquals | greaterEquals
  | equals | notEquals | and | or | xor | conditionalAnd | conditionalOr
  deriving DecidableEq, Repr

def InfixOperator.name : InfixOperator → String
  | .times => "times"
  | .divide => "divide"
  | .remainder => "remainder"
  | .plus => "plus"
  | .minus => "minus"
  | .less => "less"
  | .greater => "greater"
  | .lessEquals => "less_equals"
  | .greaterEquals => "greater_equals"
  | .equals => "equals"
  | .notEquals => "not_equals"
  | .and => "and"
  | .or => "or"
  | .xor => "xor"
  | .conditionalAnd => "conditional_and"
  | .conditionalOr => "conditional_or"

instance : Named InfixOperator where
  all :=
    [.times, .divide, .remainder, .plus, .minus, .less, .greater, .lessEquals, .greaterEquals,
     .equals, .notEquals, .and, .or, .xor, .conditionalAnd, .conditionalOr]
  name := InfixOperator.name

inductive PostfixOperator where
  | increment | decrement
  deriving DecidableEq, Repr

def PostfixOperator.name : PostfixOperator → String
  | .increment => "increment"
  | .decrement => "decrement"

instance : Named PostfixOperator where
  all :=
    [.increment, .decrement]
  name := PostfixOperator.name

inductive PrimitiveType where
  | byteType | shortType | charType | intType | longType | floatType | doubleType | booleanType
  | voidType
  deriving DecidableEq, Repr

def PrimitiveType.name : PrimitiveType → String
  | .byteType => "byte"
  | .shortType => "short"
  | .charType => "char"
  | .intType => "int"
  | .longType => "long"
  | .floatType => "float"
  | .doubleType => "double"
  | .booleanType => "boolean"
  | .voidType => "void"

instance : Named PrimitiveType where
  all :=
    [.byteType, .shortType, .charType, .intType, .longType, .floatType, .doubleType, .booleanType,
     .voidType]
  name := PrimitiveType.name

inductive NodeShape where
  | compilationUnit | packageDeclaration | importDeclaration | typeDeclaration
  | fieldDeclaration | methodDeclaration | initializer | singleVariableDeclaration
  | variableDeclarationFragment | annotationMarker | annotationNormal | memberValuePair
  | annotationSingle | primitiveType | simpleType | arrayType | block | expressionStatement
  | variableDeclarationStatement | returnStatement | ifStatement | forStatement | whileStatement
  | doStatement | breakStatement | continueStatement | emptyStatement | throwStatement
  | switchStatement | switchCase | simpleName | qualifiedName | numberLiteral | stringLiteral
  | characterLiteral | booleanLiteral | nullLiteral | thisExpression | assignment
  | infixExpression | postfixExpression | parenthesizedExpression | methodInvocation
  | classInstanceCreation | arrayAccess | variableDeclarationExpression
  deriving DecidableEq, Repr

namespace NodeShape

def name : NodeShape → String
  | .compilationUnit => "compilation_unit"
  | .packageDeclaration => "package_declaration"
  | .importDeclaration => "import_declaration"
  | .typeDeclaration => "type_declaration"
  | .fieldDeclaration => "field_declaration"
  | .methodDeclaration => "method_declaration"
  | .initializer => "initializer"
  | .singleVariableDeclaration => "single_variable_declaration"
  | .variableDeclarationFragment => "variable_declaration_fragment"
  | .annotationMarker => "marker_annotation"
  | .annotationNormal => "normal_annotation"
  | .memberValuePair => "member_value_pair"
  | .annotationSingle => "single_member_annotation"
  | .primitiveType => "primitive_type"
  | .simpleType => "simple_type"
  | .arrayType => "array_type"
  | .block => "block"
  | .expressionStatement => "expression_statement"
  | .variableDeclarationStatement => "variable_declaration_statement"
  | .returnStatement => "return_statement"
  | .ifStatement => "if_statement"
  | .forStatement => "for_statement"
  | .whileStatement => "while_statement"
  | .doStatement => "do_statement"
  | .breakStatement => "break_statement"
  | .continueStatement => "continue_statement"
  | .emptyStatement => "empty_statement"
  | .throwStatement => "throw_statement"
  | .switchStatement => "switch_statement"
  | .switchCase => "switch_case"
  | .simpleName => "simple_name"
  | .qualifiedName => "qualified_name"
  | .numberLiteral => "number_literal"
  | .stringLiteral => "string_literal"
  | .characterLiteral => "character_literal"
  | .booleanLiteral => "boolean_literal"
  | .nullLiteral => "null_literal"
  | .thisExpression => "this_expression"
  | .assignment => "assignment"
  | .infixExpression => "infix_expression"
  | .postfixExpression => "postfix_expression"
  | .parenthesizedExpression => "parenthesized_expression"
  | .methodInvocation => "method_invocation"
  | .classInstanceCreation => "class_instance_creation"
  | .arrayAccess => "array_access"
  | .variableDeclarationExpression => "variable_declaration_expression"

def all : List NodeShape :=
  [.compilationUnit, .packageDeclaration, .importDeclaration, .typeDeclaration, .fieldDeclaration,
   .methodDeclaration, .initializer, .singleVariableDeclaration, .variableDeclarationFragment,
   .annotationMarker, .annotationNormal, .memberValuePair, .annotationSingle, .primitiveType,
   .simpleType, .arrayType, .block, .expressionStatement, .variableDeclarationStatement,
   .returnStatement, .ifStatement, .forStatement, .whileStatement, .doStatement, .breakStatement,
   .continueStatement, .emptyStatement, .throwStatement, .switchStatement, .switchCase,
   .simpleName, .qualifiedName, .numberLiteral, .stringLiteral, .characterLiteral,
   .booleanLiteral, .nullLiteral, .thisExpression, .assignment, .infixExpression,
   .postfixExpression, .parenthesizedExpression, .methodInvocation, .classInstanceCreation,
   .arrayAccess, .variableDeclarationExpression]

instance : Named NodeShape := ⟨all, name⟩

end NodeShape

/-- What a field of a node holds. -/
inductive FieldType where
  /-- One child, which is always there. -/
  | child
  /-- At most one child. -/
  | optional
  /-- Any number of children, in order. -/
  | list
  /-- A property that is off unless a document says otherwise. -/
  | switch
  /-- A truth value that every document gives. -/
  | truth
  | text
  | primitive
  | assignmentOperator
  | infixOperator
  | postfixOperator
  deriving DecidableEq, Repr

abbrev FieldType.Value : FieldType → Type
  | .child => NodeId
  | .optional => Option NodeId
  | .list => List NodeId
  | .switch | .truth => Bool
  | .text => String
  | .primitive => PrimitiveType
  | .assignmentOperator => AssignmentOperator
  | .infixOperator => InfixOperator
  | .postfixOperator => PostfixOperator

structure Field where
  name : String
  type : FieldType

/-- The fields of a shape, in the order in which the source text has them. -/
def NodeShape.fields : NodeShape → List Field
  | .compilationUnit => [⟨"package", .optional⟩, ⟨"imports", .list⟩, ⟨"types", .list⟩]
  | .packageDeclaration => [⟨"annotations", .list⟩, ⟨"name", .child⟩]
  | .importDeclaration => [⟨"name", .child⟩, ⟨"is_static", .switch⟩, ⟨"on_demand", .switch⟩]
  | .typeDeclaration =>
    [⟨"modifiers", .list⟩, ⟨"name", .child⟩, ⟨"is_interface", .switch⟩, ⟨"body", .list⟩]
  | .fieldDeclaration => [⟨"modifiers", .list⟩, ⟨"ty", .child⟩, ⟨"fragments", .list⟩]
  | .methodDeclaration =>
    [⟨"modifiers", .list⟩, ⟨"return_type", .optional⟩, ⟨"name", .child⟩, ⟨"parameters", .list⟩,
      ⟨"body", .optional⟩]
  | .initializer => [⟨"body", .child⟩]
  | .singleVariableDeclaration => [⟨"ty", .child⟩, ⟨"name", .child⟩]
  | .variableDeclarationFragment => [⟨"name", .child⟩, ⟨"initializer", .optional⟩]
  | .annotationMarker => [⟨"type_name", .child⟩]
  | .annotationNormal => [⟨"type_name", .child⟩, ⟨"values", .list⟩]
  | .memberValuePair => [⟨"name", .child⟩, ⟨"value", .child⟩]
  | .annotationSingle => [⟨"type_name", .child⟩, ⟨"value", .child⟩]
  | .primitiveType => [⟨"code", .primitive⟩]
  | .simpleType => [⟨"name", .child⟩]
  | .arrayType => [⟨"element", .child⟩]
  | .block => [⟨"statements", .list⟩]
  | .expressionStatement => [⟨"expression", .child⟩]
  | .variableDeclarationStatement => [⟨"ty", .child⟩, ⟨"fragments", .list⟩]
  | .returnStatement => [⟨"expression", .optional⟩]
  | .ifStatement =>
    [⟨"condition", .child⟩, ⟨"then_statement", .child⟩, ⟨"else_statement", .optional⟩]
  | .forStatement =>
    [⟨"initializers", .list⟩, ⟨"condition", .optional⟩, ⟨"updaters", .list⟩, ⟨"body", .child⟩]
  | .whileStatement => [⟨"condition", .child⟩, ⟨"body", .child⟩]
  | .doStatement => [⟨"body", .child⟩, ⟨"condition", .child⟩]
  | .breakStatement => [⟨"label", .optional⟩]
  | .continueStatement => [⟨"label", .optional⟩]
  | .emptyStatement => []
  | .throwStatement => [⟨"expression", .child⟩]
  | .switchStatement => [⟨"expression", .child⟩, ⟨"statements", .list⟩]
  | .switchCase => [⟨"expressions", .list⟩]
  | .simpleName => [⟨"identifier", .text⟩]
  | .qualifiedName => [⟨"qualifier", .child⟩, ⟨"name", .child⟩]
  | .numberLiteral => [⟨"token", .text⟩]
  | .stringLiteral => [⟨"escaped", .text⟩]
  | .characterLiteral => [⟨"escaped", .text⟩]
  | .booleanLiteral => [⟨"value", .truth⟩]
  | .nullLiteral => []
  | .thisExpression => []
  | .assignment => [⟨"lhs", .child⟩, ⟨"operator", .assignmentOperator⟩, ⟨"rhs", .child⟩]
  | .infixExpression => [⟨"lhs", .child⟩, ⟨"operator", .infixOperator⟩, ⟨"rhs", .child⟩]
  | .postfixExpression => [⟨"operand", .child⟩, ⟨"operator", .postfixOperator⟩]
  | .parenthesizedExpression => [⟨"expression", .child⟩]
  | .methodInvocation => [⟨"target", .optional⟩, ⟨"name", .child⟩, ⟨"arguments", .list⟩]
  | .classInstanceCreation => [⟨"ty", .child⟩, ⟨"arguments", .list⟩]
  | .arrayAccess => [⟨"array", .child⟩, ⟨"index", .child⟩]
  | .variableDeclarationExpression => [⟨"ty", .child⟩, ⟨"fragments", .list⟩]

end SyntaxRecovery
