/-! Kinds of syntax tree nodes. -/
namespace ScriptTree

inductive NodeKind where
  | script
  -- Statements and their clauses.
  | block | emptyStatement | expressionStatement | constStatement | ifStatement | whileStatement
  | doWhileStatement | forStatement | forInStatement | forEachInStatement | switchStatement
  | caseClause | defaultClause | tryStatement | catchClause | exceptionFilter | finallyClause
  | throwStatement | returnStatement | breakStatement | continueStatement | labelledStatement
  | withStatement | defaultXmlNamespaceStatement
  -- Expressions and their parts.
  | emptyExpression | identifier | xmlAttributeIdentifier | asteriskExpression | decimalLiteral
  | stringLiteral | regExpLiteral | booleanLiteral | nullExpression | thisExpression
  | binaryOperation | unaryOperation | deleteExpression | typeOfExpression | voidExpression
  | yieldExpression | newExpression | callExpression | propertyExpression
  | getAllChildrenExpression | getLocalNameExpression | getArrayItemExpression | arrayInitializer
  | objectInitializer | propertyInitializer | getMethod | setMethod | conditionalExpression
  | commaExpression | parenthesizedExpression | variableDeclaration | variableDeclarator
  | xmlLiteral | xmlTextFragment | xmlExpressionFragment | function
  -- Words beside the structure, and comments.
  | keyword | label | comment
  deriving DecidableEq, Repr, Inhabited

namespace NodeKind

/-- The name of a kind in messages. -/
def name : NodeKind → String
  | .script => "Script"
  | .block => "Block"
  | .emptyStatement => "EmptyStatement"
  | .expressionStatement => "ExpressionStatement"
  | .constStatement => "ConstStatement"
  | .ifStatement => "IfStatement"
  | .whileStatement => "WhileStatement"
  | .doWhileStatement => "DoWhileStatement"
  | .forStatement => "ForStatement"
  | .forInStatement => "ForInStatement"
  | .forEachInStatement => "ForEachInStatement"
  | .switchStatement => "SwitchStatement"
  | .caseClause => "CaseClause"
  | .defaultClause => "DefaultClause"
  | .tryStatement => "TryStatement"
  | .catchClause => "CatchClause"
  | .exceptionFilter => "ExceptionFilter"
  | .finallyClause => "FinallyClause"
  | .throwStatement => "ThrowStatement"
  | .returnStatement => "ReturnStatement"
  | .breakStatement => "BreakStatement"
  | .continueStatement => "ContinueStatement"
  | .labelledStatement => "LabelledStatement"
  | .withStatement => "WithStatement"
  | .defaultXmlNamespaceStatement => "DefaultXmlNamespaceStatement"
  | .emptyExpression => "EmptyExpression"
  | .identifier => "Identifier"
  | .xmlAttributeIdentifier => "XmlAttributeIdentifier"
  | .asteriskExpression => "AsteriskExpression"
  | .decimalLiteral => "DecimalLiteral"
  | .stringLiteral => "StringLiteral"
  | .regExpLiteral => "RegExpLiteral"
  | .booleanLiteral => "BooleanLiteral"
  | .nullExpression => "NullExpression"
  | .thisExpression => "ThisExpression"
  | .binaryOperation => "BinaryOperation"
  | .unaryOperation => "UnaryOperation"
  | .deleteExpression => "DeleteExpression"
  | .typeOfExpression => "TypeOfExpression"
  | .voidExpression => "VoidExpression"
  | .yieldExpression => "YieldExpression"
  | .newExpression => "NewExpression"
  | .callExpression => "CallExpression"
  | .propertyExpression => "PropertyExpression"
  | .getAllChildrenExpression => "GetAllChildrenExpression"
  | .getLocalNameExpression => "GetLocalNameExpression"
  | .getArrayItemExpression => "GetArrayItemExpression"
  | .arrayInitializer => "ArrayInitializer"
  | .objectInitializer => "ObjectInitializer"
  | .propertyInitializer => "PropertyInitializer"
  | .getMethod => "GetMethod"
  | .setMethod => "SetMethod"
  | .conditionalExpression => "ConditionalExpression"
  | .commaExpression => "CommaExpression"
  | .parenthesizedExpression => "ParenthesizedExpression"
  | .variableDeclaration => "VariableDeclaration"
  | .variableDeclarator => "VariableDeclarator"
  | .xmlLiteral => "XmlLiteral"
  | .xmlTextFragment => "XmlTextFragment"
  | .xmlExpressionFragment => "XmlExpressionFragment"
  | .function => "Function"
  | .keyword => "Keyword"
  | .label => "Label"
  | .comment => "Comment"

/-- Every kind, in order. -/
def all : List NodeKind :=
  [.script, .block, .emptyStatement, .expressionStatement, .constStatement, .ifStatement,
   .whileStatement, .doWhileStatement, .forStatement, .forInStatement, .forEachInStatement,
   .switchStatement, .caseClause, .defaultClause, .tryStatement, .catchClause, .exceptionFilter,
   .finallyClause, .throwStatement, .returnStatement, .breakStatement, .continueStatement,
   .labelledStatement, .withStatement, .defaultXmlNamespaceStatement, .emptyExpression,
   .identifier, .xmlAttributeIdentifier, .asteriskExpression, .decimalLiteral, .stringLiteral,
   .regExpLiteral, .booleanLiteral, .nullExpression, .thisExpression, .binaryOperation,
   .unaryOperation, .deleteExpression, .typeOfExpression, .voidExpression, .yieldExpression,
   .newExpression, .callExpression, .propertyExpression, .getAllChildrenExpression,
   .getLocalNameExpression, .getArrayItemExpression, .arrayInitializer, .objectInitializer,
   .propertyInitializer, .getMethod, .setMethod, .conditionalExpression, .commaExpression,
   .parenthesizedExpression, .variableDeclaration, .variableDeclarator, .xmlLiteral,
   .xmlTextFragment, .xmlExpressionFragment, .function, .keyword, .label, .comment]

/-- The kind of a given name. -/
def ofName? (name : String) : Option NodeKind := all.find? (·.name == name)

/-- Expressions without inner structure. A cursor inside one of them means that expression. -/
def isAtomicLeaf : NodeKind → Bool
  | .booleanLiteral | .nullExpression | .decimalLiteral | .regExpLiteral | .stringLiteral
  | .thisExpression | .identifier => true
  | _ => false

end NodeKind
end ScriptTree
