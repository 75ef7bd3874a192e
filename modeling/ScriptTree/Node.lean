import ScriptTree.Kind.Spelling
import ScriptTree.NodeKind
import ScriptTree.Text.Range

/-!
Syntax trees. Every node has the range of source text it covers. Keywords and labels are nodes of
their own; of other tokens a node keeps the position. A position is optional where the token may be
missing from a source with errors.
-/
namespace ScriptTree

/-- A keyword in the source. -/
structure Keyword where
  range : Range
  token : Kind
  deriving DecidableEq, Repr

/-- How the keyword is written. -/
def Keyword.text (k : Keyword) : String := k.token.keywordText?.getD ""

/-- The label of a statement, where it is defined or where a jump names it. -/
structure Label where
  range : Range
  text : String
  deriving DecidableEq, Repr

inductive CommentStyle where
  | singleLine | multiLine
  deriving DecidableEq, Repr

structure Comment where
  range : Range
  text : String
  style : CommentStyle
  deriving DecidableEq, Repr

/-- Kinds of literals. Numbers in any base are decimal literals. -/
inductive LiteralKind where
  | decimal | string | regExp | boolean
  deriving DecidableEq, Repr

inductive Node where
  | keyword (word : Keyword)
  | label (label : Label)
  | comment (comment : Comment)
  | script (range : Range) (statements : List Node) (comments : List Comment)
  -- Statements and their clauses.
  | block (range : Range) (openBrace : Option Nat) (statements : List Node)
      (closeBrace : Option Nat)
  | emptyStatement (range : Range)
  | expressionStatement (range : Range) (expression : Node) (semicolon : Option Nat)
  | constStatement (range : Range) (constKeyword : Keyword) (declarations : List Node)
      (commas : List Nat) (semicolon : Option Nat)
  | ifStatement (range : Range) (ifKeyword : Keyword) (openParen : Option Nat) (condition : Node)
      (closeParen : Option Nat) (thenStatement : Node) (elseKeyword : Option Keyword)
      (elseStatement : Option Node)
  | whileStatement (range : Range) (whileKeyword : Keyword) (openParen : Option Nat)
      (condition : Node) (closeParen : Option Nat) (body : Node)
  | doWhileStatement (range : Range) (doKeyword : Keyword) (body : Node)
      (whileKeyword : Option Keyword) (openParen : Option Nat) (condition : Node)
      (closeParen semicolon : Option Nat)
  | forStatement (range : Range) (forKeyword : Keyword) (openParen : Option Nat) (initial : Node)
      (initialSemicolon : Option Nat) (condition : Node) (conditionSemicolon : Option Nat)
      (step : Node) (closeParen : Option Nat) (body : Node)
  | forInStatement (range : Range) (forKeyword : Keyword) (eachKeyword : Option Keyword)
      (openParen : Option Nat) (item : Node) (inKeyword : Keyword) (iterator : Node)
      (closeParen : Option Nat) (body : Node)
  | switchStatement (range : Range) (switchKeyword : Keyword) (openParen : Option Nat)
      (condition : Node) (closeParen openBrace : Option Nat) (clauses : List Node)
      (closeBrace : Option Nat)
  | caseClause (range : Range) (caseKeyword : Keyword) (condition : Node) (colon : Option Nat)
      (statements : List Node)
  | defaultClause (range : Range) (defaultKeyword : Keyword) (colon : Option Nat)
      (statements : List Node)
  | tryStatement (range : Range) (tryKeyword : Keyword) (body : Node) (catches : List Node)
      (finallyPart : Option Node)
  | catchClause (range : Range) (catchKeyword : Keyword) (openParen : Option Nat)
      (exception : Node) (filter : Option Node) (closeParen : Option Nat) (body : Node)
  | exceptionFilter (range : Range) (ifKeyword : Keyword) (expression : Node)
  | finallyClause (range : Range) (finallyKeyword : Keyword) (body : Node)
  | throwStatement (range : Range) (throwKeyword : Keyword) (exception : Node)
      (semicolon : Option Nat)
  | returnStatement (range : Range) (returnKeyword : Keyword) (value : Option Node)
      (semicolon : Option Nat)
  /-- A `break` or `continue`, as the keyword tells. -/
  | jumpStatement (range : Range) (word : Keyword) (target : Option Label)
      (semicolon : Option Nat)
  | labelledStatement (range : Range) (name : Label) (colon : Option Nat) (statement : Node)
  | withStatement (range : Range) (withKeyword : Keyword) (openParen : Option Nat)
      (expression : Node) (closeParen : Option Nat) (statement : Node)
  | defaultXmlNamespaceStatement (range : Range) (defaultKeyword xmlKeyword : Keyword)
      (namespaceKeyword : Option Keyword) (assign : Option Nat) (value : Node)
      (semicolon : Option Nat)
  -- Expressions and their parts.
  | emptyExpression (range : Range)
  | identifier (range : Range) (name : String)
  | xmlAttribute (range : Range) (name : String)
  | asterisk (range : Range)
  | literal (range : Range) (kind : LiteralKind) (text : String)
  | null (range : Range)
  | this (range : Range) (thisKeyword : Keyword)
  /-- A binary operator or an assignment. -/
  | binary (range : Range) (operator : Kind) (position : Nat) (left right : Node)
  /-- A prefix or postfix operator that is no keyword. -/
  | unary (range : Range) (operator : Kind) (position : Nat) (expression : Node)
  /-- An operator that is a keyword: `delete`, `typeof`, `void` or `yield`. -/
  | keywordOperation (range : Range) (word : Keyword) (expression : Node)
  | new (range : Range) (newKeyword : Keyword) (objectClass : Node)
  | call (range : Range) (expression : Node) (openParen : Option Nat) (arguments : List Node)
      (commas : List Nat) (closeParen : Option Nat)
  | property (range : Range) (object : Node) (dot : Nat) (name : Node)
  | allChildren (range : Range) (object : Node) (dotDot : Nat) (name : Node)
  | localName (range : Range) (space : Node) (colonColon : Nat) (name : Node)
  | arrayItem (range : Range) (array : Node) (openBracket : Option Nat) (index : Node)
      (closeBracket : Option Nat)
  | array (range : Range) (openBracket : Nat) (items : List Node) (commas : List Nat)
      (closeBracket : Option Nat)
  /-- An object. It has several lines if its braces stand on different ones. -/
  | object (range : Range) (openBrace : Nat) (members : List Node) (commas : List Nat)
      (closeBrace : Option Nat) (multiline : Bool)
  | propertyInitializer (range : Range) (name : Node) (colon : Option Nat) (value : Node)
  | getMethod (range : Range) (getKeyword : Keyword) (name : Node)
      (openParen closeParen : Option Nat) (body : Node)
  | setMethod (range : Range) (setKeyword : Keyword) (name : Node) (openParen : Option Nat)
      (argument : Node) (closeParen : Option Nat) (body : Node)
  | conditional (range : Range) (condition : Node) (question : Nat) (trueValue : Node)
      (colon : Option Nat) (falseValue : Node)
  | comma (range : Range) (items : List Node) (commas : List Nat)
  | parenthesized (range : Range) (openParen : Nat) (expression : Node)
      (closeParen : Option Nat)
  | function (range : Range) (functionKeyword : Keyword) (name : Option Node)
      (openParen : Option Nat) (arguments : List Node) (commas : List Nat)
      (closeParen : Option Nat) (body : Node)
  | variableDeclaration (range : Range) (varKeyword : Keyword) (declarations : List Node)
      (commas : List Nat)
  | variableDeclarator (range : Range) (name : Node) (assign : Option Nat)
      (initializer : Option Node)
  | xmlLiteral (range : Range) (fragments : List Node)
  | xmlText (range : Range) (xml : String)
  | xmlExpression (range : Range) (expression : Node)

namespace Node

/-- The empty expression at a position. -/
def emptyAt (pos : Nat) : Node := .emptyExpression (.empty pos)

/-- The source text a node covers. -/
def range : Node → Range
  | .keyword word => word.range
  | .label l => l.range
  | .comment c => c.range
  | .script r .. | .block r .. | .emptyStatement r | .expressionStatement r .. => r
  | .constStatement r .. | .ifStatement r .. | .whileStatement r .. | .doWhileStatement r .. => r
  | .forStatement r .. | .forInStatement r .. | .switchStatement r .. | .caseClause r .. => r
  | .defaultClause r .. | .tryStatement r .. | .catchClause r .. | .exceptionFilter r .. => r
  | .finallyClause r .. | .throwStatement r .. | .returnStatement r .. | .jumpStatement r .. => r
  | .labelledStatement r .. | .withStatement r .. | .defaultXmlNamespaceStatement r .. => r
  | .emptyExpression r | .identifier r _ | .xmlAttribute r _ | .asterisk r | .literal r .. => r
  | .null r | .this r _ | .binary r .. | .unary r .. | .keywordOperation r .. | .new r .. => r
  | .call r .. | .property r .. | .allChildren r .. | .localName r .. | .arrayItem r .. => r
  | .array r .. | .object r .. | .propertyInitializer r .. | .getMethod r .. => r
  | .setMethod r .. | .conditional r .. | .comma r .. | .parenthesized r .. | .function r .. => r
  | .variableDeclaration r .. | .variableDeclarator r .. | .xmlLiteral r _ | .xmlText r _ => r
  | .xmlExpression r _ => r

def kind : Node → NodeKind
  | .keyword _ => .keyword
  | .label _ => .label
  | .comment _ => .comment
  | .script .. => .script
  | .block .. => .block
  | .emptyStatement _ => .emptyStatement
  | .expressionStatement .. => .expressionStatement
  | .constStatement .. => .constStatement
  | .ifStatement .. => .ifStatement
  | .whileStatement .. => .whileStatement
  | .doWhileStatement .. => .doWhileStatement
  | .forStatement .. => .forStatement
  | .forInStatement _ _ eachKeyword .. =>
    if eachKeyword.isSome then .forEachInStatement else .forInStatement
  | .switchStatement .. => .switchStatement
  | .caseClause .. => .caseClause
  | .defaultClause .. => .defaultClause
  | .tryStatement .. => .tryStatement
  | .catchClause .. => .catchClause
  | .exceptionFilter .. => .exceptionFilter
  | .finallyClause .. => .finallyClause
  | .throwStatement .. => .throwStatement
  | .returnStatement .. => .returnStatement
  | .jumpStatement _ word .. =>
    if word.token = .breakKeyword then .breakStatement else .continueStatement
  | .labelledStatement .. => .labelledStatement
  | .withStatement .. => .withStatement
  | .defaultXmlNamespaceStatement .. => .defaultXmlNamespaceStatement
  | .emptyExpression _ => .emptyExpression
  | .identifier .. => .identifier
  | .xmlAttribute .. => .xmlAttributeIdentifier
  | .asterisk _ => .asteriskExpression
  | .literal _ .decimal _ => .decimalLiteral
  | .literal _ .string _ => .stringLiteral
  | .literal _ .regExp _ => .regExpLiteral
  | .literal _ .boolean _ => .booleanLiteral
  | .null _ => .nullExpression
  | .this .. => .thisExpression
  | .binary .. => .binaryOperation
  | .unary .. => .unaryOperation
  | .keywordOperation _ word _ =>
    match word.token with
    | .deleteKeyword => .deleteExpression
    | .typeOfKeyword => .typeOfExpression
    | .voidKeyword => .voidExpression
    | _ => .yieldExpression
  | .new .. => .newExpression
  | .call .. => .callExpression
  | .property .. => .propertyExpression
  | .allChildren .. => .getAllChildrenExpression
  | .localName .. => .getLocalNameExpression
  | .arrayItem .. => .getArrayItemExpression
  | .array .. => .arrayInitializer
  | .object .. => .objectInitializer
  | .propertyInitializer .. => .propertyInitializer
  | .getMethod .. => .getMethod
  | .setMethod .. => .setMethod
  | .conditional .. => .conditionalExpression
  | .comma .. => .commaExpression
  | .parenthesized .. => .parenthesizedExpression
  | .function .. => .function
  | .variableDeclaration .. => .variableDeclaration
  | .variableDeclarator .. => .variableDeclarator
  | .xmlLiteral .. => .xmlLiteral
  | .xmlText .. => .xmlTextFragment
  | .xmlExpression .. => .xmlExpressionFragment

/-- Whether the comment `a` goes before the statement `b`: it starts no later. -/
def startsNoLater (a b : Node) : Bool := a.range.start ≤ b.range.start

/-- The nodes directly inside a node, in the order of the source. In a script the comments are put
between the statements by their starts. -/
def children : Node → List Node
  | .script _ statements comments => (comments.map .comment).merge statements startsNoLater
  | .block _ _ statements _ => statements
  | .expressionStatement _ expression _ => [expression]
  | .constStatement _ word declarations .. => .keyword word :: declarations
  | .ifStatement _ word _ condition _ thenStatement elseKeyword elseStatement =>
    [.keyword word, condition, thenStatement] ++ (elseKeyword.map .keyword).toList ++
      elseStatement.toList
  | .whileStatement _ word _ condition _ body => [.keyword word, condition, body]
  | .doWhileStatement _ word body whileKeyword _ condition .. =>
    [.keyword word, body] ++ (whileKeyword.map .keyword).toList ++ [condition]
  | .forStatement _ word _ initial _ condition _ step _ body =>
    [.keyword word, initial, condition, step, body]
  | .forInStatement _ word eachKeyword _ item inKeyword iterator _ body =>
    .keyword word :: (eachKeyword.map .keyword).toList ++
      [item, .keyword inKeyword, iterator, body]
  | .switchStatement _ word _ condition _ _ clauses _ => .keyword word :: condition :: clauses
  | .caseClause _ word condition _ statements => .keyword word :: condition :: statements
  | .defaultClause _ word _ statements => .keyword word :: statements
  | .tryStatement _ word body catches finallyPart =>
    .keyword word :: body :: catches ++ finallyPart.toList
  | .catchClause _ word _ exception filter _ body =>
    .keyword word :: exception :: filter.toList ++ [body]
  | .exceptionFilter _ word expression => [.keyword word, expression]
  | .finallyClause _ word body => [.keyword word, body]
  | .throwStatement _ word exception _ => [.keyword word, exception]
  | .returnStatement _ word value _ => .keyword word :: value.toList
  | .jumpStatement _ word target _ => .keyword word :: (target.map .label).toList
  | .labelledStatement _ name _ statement => [.label name, statement]
  | .withStatement _ word _ expression _ statement => [.keyword word, expression, statement]
  | .defaultXmlNamespaceStatement _ word xmlKeyword namespaceKeyword _ value _ =>
    [.keyword word, .keyword xmlKeyword] ++ (namespaceKeyword.map .keyword).toList ++ [value]
  | .this _ word => [.keyword word]
  | .binary _ _ _ left right => [left, right]
  | .unary _ _ _ expression => [expression]
  | .keywordOperation _ word expression => [.keyword word, expression]
  | .new _ word objectClass => [.keyword word, objectClass]
  | .call _ expression _ arguments .. => expression :: arguments
  | .property _ base _ name => [base, name]
  | .allChildren _ base _ name => [base, name]
  | .localName _ space _ name => [space, name]
  | .arrayItem _ base _ index _ => [base, index]
  | .array _ _ items .. => items
  | .object _ _ members .. => members
  | .propertyInitializer _ name _ value => [name, value]
  | .getMethod _ word name _ _ body => [.keyword word, name, body]
  | .setMethod _ word name _ argument _ body => [.keyword word, name, argument, body]
  | .conditional _ condition _ trueValue _ falseValue => [condition, trueValue, falseValue]
  | .comma _ items _ => items
  | .parenthesized _ _ expression _ => [expression]
  | .function _ word name _ arguments _ _ body =>
    .keyword word :: name.toList ++ arguments ++ [body]
  | .variableDeclaration _ word declarations _ => .keyword word :: declarations
  | .variableDeclarator _ name _ initializer => name :: initializer.toList
  | .xmlLiteral _ fragments => fragments
  | .xmlExpression _ expression => [expression]
  | .keyword _ | .label _ | .comment _ | .emptyStatement _ | .emptyExpression _ => []
  | .identifier .. | .xmlAttribute .. | .asterisk _ | .literal .. | .null _ | .xmlText .. => []

/-- How a binary operator is written. -/
def operatorText (operator : Kind) : String := operator.text?.getD ""

/-- Whether an operator with this tag follows its operand. -/
def isTrailingOperator (operator : Kind) : Bool :=
  operator == .postIncrement || operator == .postDecrement

end Node
end ScriptTree
