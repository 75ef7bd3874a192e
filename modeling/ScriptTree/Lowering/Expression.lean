import ScriptTree.Lowering.Basic

/-! Expressions. -/
namespace ScriptTree.Lowering

def literalKind? : Kind → Option LiteralKind
  | .decimalLiteral | .hexIntegerLiteral | .octalIntegerLiteral => some .decimal
  | .stringLiteral => some .string
  | .regularExpressionLiteral => some .regExp
  | .trueKeyword | .falseKeyword => some .boolean
  | _ => none

def literal (cx : Lowering) (t : Concrete) (kind : LiteralKind) : Node :=
  .literal (cx.leafRange t) kind t.content

/-- A clause of a loop head or a missing operand: what is inside it, or an empty expression. -/
def wrapped (cx : Lowering) (b : Builder) (t : Concrete) (a : Ancestry) : Lowered Node :=
  match t.children with
  | [] => .ok (.emptyAt (cx.offset t.start))
  | [inside] => b.expression inside a
  | _ => .error (.unexpectedNode t.kind a.parent)

/-- A star: a product, or the name that stands for all names. -/
def asterisk (cx : Lowering) (b : Builder) (t : Concrete) (a : Ancestry)
    (product : Lowered Node) : Lowered Node :=
  match t.children with
  | [] => .ok (.asterisk (cx.leafRange t))
  | [inside] => b.expression inside a
  | _ => product

def thisExpression (cx : Lowering) (t : Concrete) : Lowered Node := do
  return .this (cx.leafRange t) (← cx.keyword .thisKeyword t.start)

def binary (cx : Lowering) (b : Builder) (t : Concrete) (a : Ancestry) : Lowered Node := do
  let inside := a.enter .binaryOperation
  let leftTree ← child t 0 "left operand"
  let rightTree ← child t 1 "right operand"
  let position ← cx.operatorPosition t.kind leftTree.after rightTree.start
  let left ← b.expression leftTree inside
  let right ← b.expression rightTree inside
  return .binary (.between left.range.start right.range.stop) t.kind position left right

/-- An operator before or, if `trailing` is set, after its operand. -/
def unary (cx : Lowering) (b : Builder) (t : Concrete) (a : Ancestry) (trailing : Bool) :
    Lowered Node := do
  let operandTree ← child t 0 "operand"
  let position ←
    if trailing then cx.operatorPosition t.kind operandTree.after t.after
    else cx.operatorPosition t.kind t.start operandTree.start
  let operand ← b.expression operandTree (a.enter .unaryOperation)
  return .unary (cx.rangeOf t) t.kind position operand

/-- The kind of the operation that a keyword makes. -/
def operationKind : Kind → NodeKind
  | .deleteKeyword => .deleteExpression
  | .typeOfKeyword => .typeOfExpression
  | .voidKeyword => .voidExpression
  | _ => .yieldExpression

/-- An operator that is a keyword. Only `yield` may stand without an operand. -/
def keywordOperation (cx : Lowering) (b : Builder) (t : Concrete) (a : Ancestry) :
    Lowered Node := do
  let word ← cx.keyword t.kind t.start
  let operand ← match t.child? 0 with
    | some operandTree => b.expression operandTree (a.enter (operationKind t.kind))
    | none =>
      if t.kind = .yieldKeyword then .ok (.emptyAt word.range.stop)
      else .error (.missingChild t.kind "operand")
  return .keywordOperation (cx.rangeOf t) word operand

def newExpression (cx : Lowering) (b : Builder) (t : Concrete) (a : Ancestry) :
    Lowered Node := do
  let word ← cx.keyword .newKeyword t.start
  let classTree ← child t 0 "class"
  return .new (cx.rangeOf t) word (← b.expression classTree (a.enter .newExpression))

def call (cx : Lowering) (b : Builder) (t : Concrete) (a : Ancestry) : Lowered Node := do
  let inside := a.enter .callExpression
  let calleeTree ← child t 0 "callee"
  let argumentsTree ← child t 1 "arguments"
  let callee ← b.expression calleeTree inside
  let list ← cx.listed argumentsTree (b.expression · inside)
  return .call (cx.rangeOf t) callee list.openParen list.items list.commas list.closeParen

/-- An object, a mark and a name, made into a node by `build`. -/
def selector (cx : Lowering) (b : Builder) (t : Concrete) (a : Ancestry) (kind : NodeKind)
    (mark : Kind) (build : Range → Node → Nat → Node → Node) : Lowered Node := do
  let inside := a.enter kind
  let objectTree ← child t 0 "object"
  let nameTree ← child t 1 "property"
  let position ← cx.position mark objectTree.after nameTree.start
  let object ← b.expression objectTree inside
  let name ← b.expression nameTree inside
  return build (cx.rangeOf t) object position name

def arrayItem (cx : Lowering) (b : Builder) (t : Concrete) (a : Ancestry) : Lowered Node := do
  let inside := a.enter .getArrayItemExpression
  let arrayTree ← child t 0 "array"
  let indexTree ← child t 1 "index"
  let array ← b.expression arrayTree inside
  let index ← b.expression indexTree inside
  return .arrayItem (cx.rangeOf t) array
    (cx.position? .openBracket arrayTree.after indexTree.start) index
    (cx.position? .closeBracket indexTree.after t.after)

def conditional (cx : Lowering) (b : Builder) (t : Concrete) (a : Ancestry) : Lowered Node := do
  let inside := a.enter .conditionalExpression
  let conditionTree ← child t 0 "condition"
  let trueTree ← child t 1 "true branch"
  let falseTree ← child t 2 "false branch"
  let condition ← b.expression conditionTree inside
  let question ← cx.position .question conditionTree.after trueTree.start
  let trueValue ← b.expression trueTree inside
  let falseValue ← b.expression falseTree inside
  return .conditional (cx.rangeOf t) condition question trueValue
    (cx.position? .colon trueTree.after falseTree.start) falseValue

def parenthesized (cx : Lowering) (b : Builder) (t : Concrete) (a : Ancestry) :
    Lowered Node := do
  let insideTree ← child t 0 "expression"
  let openParen ← cx.position .openParen t.start (t.start + 1)
  let inside ← b.expression insideTree (a.enter .parenthesizedExpression)
  return .parenthesized (cx.rangeOf t) openParen inside
    (cx.position? .closeParen insideTree.after t.after)

def comma (cx : Lowering) (b : Builder) (t : Concrete) (a : Ancestry) : Lowered Node := do
  let items ← t.children.mapM (b.expression · (a.enter .commaExpression))
  return .comma (cx.rangeOf t) items (← cx.commas t.children)

/-- An item of an array. A hole is an empty expression. -/
def item (cx : Lowering) (b : Builder) (t : Concrete) (a : Ancestry) : Lowered Node :=
  match t.children with
  | value :: _ => b.expression value a
  | [] => .ok (.emptyAt (cx.offset t.start))

def array (cx : Lowering) (b : Builder) (t : Concrete) (a : Ancestry) : Lowered Node := do
  let openBracket ← cx.position .openBracket t.start (t.start + 1)
  let items ← t.children.mapM (cx.item b · (a.enter .arrayInitializer))
  let itemsEnd := afterLast t.children (t.start + 1)
  return .array (cx.rangeOf t) openBracket items (← cx.commas t.children)
    (cx.position? .closeBracket itemsEnd t.after)

def propertyInitializer (cx : Lowering) (b : Builder) (t : Concrete) (a : Ancestry) :
    Lowered Node := do
  let inside := a.enter .propertyInitializer
  let nameTree ← child t 0 "name"
  let valueTree ← child t 1 "value"
  let name ← b.expression nameTree inside
  let value ← b.expression valueTree inside
  return .propertyInitializer (cx.rangeOf t) name
    (cx.position? .colon nameTree.after valueTree.start) value

def getMethod (cx : Lowering) (b : Builder) (t : Concrete) (a : Ancestry) : Lowered Node := do
  let inside := a.enter .getMethod
  let nameTree ← child t 0 "name"
  let bodyTree ← child t 1 "body"
  let openParen := cx.index? .openParen nameTree.after bodyTree.start
  let closeFrom := (openParen.map (· + 1)).getD nameTree.after
  let word ← cx.keyword .getKeyword t.start
  let name ← b.expression nameTree inside
  return .getMethod (cx.rangeOf t) word name (openParen.map cx.offset)
    (cx.position? .closeParen closeFrom bodyTree.start) (← cx.block b bodyTree inside)

def setMethod (cx : Lowering) (b : Builder) (t : Concrete) (a : Ancestry) : Lowered Node := do
  let inside := a.enter .setMethod
  let nameTree ← child t 0 "name"
  let argumentTree ← child t 1 "argument"
  let bodyTree ← child t 2 "body"
  let word ← cx.keyword .setKeyword t.start
  let name ← b.expression nameTree inside
  let argument ← cx.identifier argumentTree inside
  return .setMethod (cx.rangeOf t) word name
    (cx.position? .openParen nameTree.after argumentTree.start) argument
    (cx.position? .closeParen argumentTree.after bodyTree.start) (← cx.block b bodyTree inside)

def objectMember (cx : Lowering) (b : Builder) (t : Concrete) (a : Ancestry) : Lowered Node :=
  match t.kind with
  | .propertyInit => cx.propertyInitializer b t a
  | .getKeyword => cx.getMethod b t a
  | .setKeyword => cx.setMethod b t a
  | found => .error (.unexpectedNode found .objectInitializer)

def object (cx : Lowering) (b : Builder) (t : Concrete) (a : Ancestry) : Lowered Node := do
  let openBrace ← match cx.index? .openBrace t.start (t.start + 1) with
    | some index => .ok index
    | none => .error (.tokenNotFound .openBrace t.start t.start)
  let members ← t.children.mapM (cx.objectMember b · (a.enter .objectInitializer))
  let membersEnd := afterLast t.children (openBrace + 1)
  let closeBrace := cx.index? .closeBrace membersEnd t.after
  let line (index : Nat) := cx.tokens[index]?.map (·.line)
  let multiline := closeBrace.any fun index => line index != line openBrace
  return .object (cx.rangeOf t) (cx.offset openBrace) members (← cx.commas t.children)
    (closeBrace.map cx.offset) multiline

/-- A part of an XML literal: text, or an embedded expression. -/
def xmlPart (cx : Lowering) (b : Builder) (t : Concrete) (a : Ancestry) : Lowered Node := do
  if t.kind = .xmlFragment ∨ t.kind = .xmlFragmentEnd then
    return .xmlText (cx.leafRange t) t.content
  else
    let inside ← b.expression t (a.enter .xmlExpressionFragment)
    return .xmlExpression inside.range inside

/-- An XML literal. Its parts are put into the order of the source. -/
def xmlLiteral (cx : Lowering) (b : Builder) (t : Concrete) (a : Ancestry) : Lowered Node := do
  let parts ← (sorted t.children).mapM (cx.xmlPart b · (a.enter .xmlLiteral))
  return .xmlLiteral (cx.rangeOf t) parts

/-- Declared names, without the end of the statement. -/
def variableDeclaration (cx : Lowering) (b : Builder) (t : Concrete) (a : Ancestry) :
    Lowered Node := do
  let word ← cx.keyword .varKeyword t.start
  let declarations ← t.children.mapM (cx.declarator b · (a.enter .variableDeclaration))
  return .variableDeclaration (cx.rangeOf t) word declarations (← cx.commas t.children)

/-- Stop when a node would stand too deep. -/
def guard (limit : Nat) (a : Ancestry) : Lowered Unit :=
  if limit < a.depth then .error (.tooDeep limit) else .ok ()

/-- An expression, told by its tag. -/
def expression (cx : Lowering) (limit : Nat) (b : Builder) (t : Concrete) (a : Ancestry) :
    Lowered Node := do
  guard limit a
  match t.kind with
  | .expr => cx.wrapped b t a
  | .asterisk => cx.asterisk b t a (cx.binary b t a)
  | .xmlAttribute => return .xmlAttribute (cx.leafRange t) t.content
  | .nullKeyword => return .null (cx.leafRange t)
  | .thisKeyword => cx.thisExpression t
  | .identifier => cx.identifier t a
  | .paren => cx.parenthesized b t a
  | .commaExpr => cx.comma b t a
  | .call => cx.call b t a
  | .byField => cx.selector b t a .propertyExpression .dot .property
  | .dotDot => cx.selector b t a .getAllChildrenExpression .dotDot .allChildren
  | .colonColon => cx.selector b t a .getLocalNameExpression .colonColon .localName
  | .byIndex => cx.arrayItem b t a
  | .newKeyword => cx.newExpression b t a
  | .question => cx.conditional b t a
  | .deleteKeyword | .typeOfKeyword | .voidKeyword | .yieldKeyword => cx.keywordOperation b t a
  | .plusPlus | .minusMinus | .exclamation | .tilde | .unaryPlus | .unaryMinus =>
    cx.unary b t a false
  | .postIncrement | .postDecrement => cx.unary b t a true
  | .arrayLiteral => cx.array b t a
  | .objectLiteral => cx.object b t a
  | .functionKeyword => cx.function b t a
  | .varKeyword => cx.variableDeclaration b t a
  | .xmlLiteral => cx.xmlLiteral b t a
  | k =>
    match literalKind? k with
    | some kind => return cx.literal t kind
    | none =>
      if k.isBinaryOperator then cx.binary b t a else throw (.unexpectedNode k a.parent)

end ScriptTree.Lowering
