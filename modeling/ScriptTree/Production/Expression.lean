import ScriptTree.Production.Grammar

/-! Expressions, from the loosest rule to the tightest. -/
namespace ScriptTree.Production

/-- An expression, with commas. -/
def expression (g : Grammar) (noIn : Bool) : Production Concrete := do
  let first ← g.assignment noIn
  if ← eat .comma then
    let more ← separated (g.assignment noIn)
    node .commaExpr first.start (first :: more)
  else
    return first

/-- Whether a `yield` before a token of this kind has no operand. -/
def endsYield : Kind → Bool
  | .closeParen | .closeBracket | .closeBrace | .comma | .semicolon | .colon | .endOfFile => true
  | _ => false

def yieldExpression (g : Grammar) (noIn : Bool) : Production Concrete := do
  let start ← advance
  let bare := endsYield (← current) || (← afterLineBreak)
  let operand ← if bare then pure [] else pure [← g.assignment noIn]
  node .yieldKeyword start operand

/-- The name after a dot, two dots or two colons. -/
def selector : Production Concrete := do
  match ← current with
  | .xmlAttribute => leaf .xmlAttribute
  | .asterisk => leaf .asterisk
  | k =>
    if k == .identifier || k.isKeyword then leaf .identifier
    else
      reportSet "\x7bidentifier, '@attribute', '*'\x7d"
      missing .identifier

/-- The arguments of a call, with their parentheses. -/
def arguments (g : Grammar) : Production Concrete := do
  let start ← index
  expect .openParen
  let items ← if ← sees .closeParen then pure [] else separated (g.assignment false)
  expect .closeParen
  node .arguments start items

def parenthesized (g : Grammar) : Production Concrete := do
  let start ← advance
  let inside ← expression g false
  expect .closeParen
  node .paren start [inside]

/-- An array. A hole stands at its comma. -/
def arrayLiteral (g : Grammar) : Production Concrete := do
  let start ← advance
  let items ← iterate ([] : List Concrete) fun items => do
    if (← atEnd) || (← sees .closeBracket) then return .inr items.reverse
    if ← sees .comma then
      return .inl (.absent .item (← advance) :: items)
    let value ← g.assignment false
    let items := .inner .item value.start value.lastToken? [value] :: items
    return if ← eat .comma then .inl items else .inr items.reverse
  expect .closeBracket
  node .arrayLiteral start items

/-- The name of a property. -/
def propertyName : Production Concrete := do
  let k ← current
  if k == .stringLiteral || k.isNumericLiteral then leaf k
  else if k == .identifier || k.isKeyword then leaf .identifier
  else
    reportSet "\x7bidentifier, string, number\x7d"
    missing .identifier

/-- A property read or written by a function. -/
def accessor (g : Grammar) (kind : Kind) : Production Concrete := do
  let start ← advance
  let name ← propertyName
  expect .openParen
  let argument ← if kind == .setKeyword then pure [← identifier] else pure []
  expect .closeParen
  let body ← block g
  node kind start (name :: argument ++ [body])

/-- A member of an object. The words `get` and `set` open an accessor only before a name. -/
def property (g : Grammar) : Production Concrete := do
  let k ← current
  if (k == .getKeyword || k == .setKeyword) && (← peek 1).isPropertyName then accessor g k
  else
    let start ← index
    let name ← propertyName
    expect .colon
    let value ← g.assignment false
    node .propertyInit start [name, value]

def objectLiteral (g : Grammar) : Production Concrete := do
  let start ← advance
  let members ← iterate ([] : List Concrete) fun members => do
    if (← atEnd) || (← sees .closeBrace) then return .inr members.reverse
    let members := (← property g) :: members
    return if ← eat .comma then .inl members else .inr members.reverse
  expect .closeBrace
  node .objectLiteral start members

/-- XML text with the expressions embedded in it. -/
def xmlLiteral (g : Grammar) : Production Concrete := do
  let start ← index
  let parts ← iterate ([] : List Concrete) fun parts => do
    match ← current with
    | .xmlFragment => return .inl ((← leaf .xmlFragment) :: parts)
    | .xmlFragmentEnd => return .inr ((← leaf .xmlFragmentEnd) :: parts).reverse
    | .openBrace =>
      discard advance
      let inside ← expression g false
      expect .closeBrace
      return .inl (inside :: parts)
    | _ =>
      reportExpected .xmlFragmentEnd
      return .inr parts.reverse
  node .xmlLiteral start parts

/-- An operand by itself. -/
def operand (g : Grammar) : Production Concrete := do
  match ← current with
  | .thisKeyword => leaf .thisKeyword
  | .nullKeyword => leaf .nullKeyword
  | .trueKeyword => leaf .trueKeyword
  | .falseKeyword => leaf .falseKeyword
  | .stringLiteral => leaf .stringLiteral
  | .regularExpressionLiteral => leaf .regularExpressionLiteral
  | .xmlAttribute => leaf .xmlAttribute
  | .openParen => parenthesized g
  | .openBracket => arrayLiteral g
  | .openBrace => objectLiteral g
  | .functionKeyword => function g false
  | .xmlFragment | .xmlFragmentEnd => xmlLiteral g
  | k =>
    if k.isNumericLiteral then leaf k
    else if k.isIdentifier then leaf .identifier
    else
      reportUnexpected
      missing .expr

/-- An operand by itself, after at most one invalid character. -/
def primary (g : Grammar) : Production Concrete := do
  if ← sees .unknown then
    reportUnexpected
    discard advance
  operand g

/-- An object made by `new`, with the arguments of its constructor if there are any. -/
def newExpression (g : Grammar) : Production Concrete := do
  let (start, callee) ← nested do
    let start ← advance
    return (start, ← g.member false)
  let target ←
    if ← sees .openParen then node .call callee.start [callee, ← arguments g] else pure callee
  node .newKeyword start [target]

/-- An operand with the member accesses and, if they are allowed, the calls after it. -/
def member (g : Grammar) (calls : Bool) : Production Concrete := do
  let first ← if ← sees .newKeyword then newExpression g else primary g
  iterate first fun object => do
    match ← current with
    | .dot =>
      discard advance
      return .inl (← node .byField object.start [object, ← selector])
    | .dotDot =>
      discard advance
      return .inl (← node .dotDot object.start [object, ← selector])
    | .colonColon =>
      discard advance
      return .inl (← node .colonColon object.start [object, ← selector])
    | .openBracket =>
      discard advance
      let place ← expression g false
      expect .closeBracket
      return .inl (← node .byIndex object.start [object, place])
    | .openParen =>
      if calls then return .inl (← node .call object.start [object, ← arguments g])
      else return .inr object
    | _ => return .inr object

/-- The tag of an operator that follows its operand. -/
def trailingOperator? : Kind → Option Kind
  | .plusPlus => some .postIncrement
  | .minusMinus => some .postDecrement
  | _ => none

/-- The tag of an operator that stands before its operand. -/
def leadingOperator? : Kind → Option Kind
  | .plus => some .unaryPlus
  | .minus => some .unaryMinus
  | .deleteKeyword => some .deleteKeyword
  | .voidKeyword => some .voidKeyword
  | .typeOfKeyword => some .typeOfKeyword
  | .plusPlus => some .plusPlus
  | .minusMinus => some .minusMinus
  | .exclamation => some .exclamation
  | .tilde => some .tilde
  | _ => none

/-- An operand with the operator that may follow it on the same line. -/
def trailing (g : Grammar) : Production Concrete := do
  let inside ← member g true
  match trailingOperator? (← current) with
  | some tag =>
    if ← afterLineBreak then return inside
    discard advance
    node tag inside.start [inside]
  | none => return inside

/-- An operand with its prefix operators. -/
def unary (g : Grammar) : Production Concrete := do
  match leadingOperator? (← current) with
  | some tag =>
    let (start, inside) ← nested do
      let start ← advance
      return (start, ← g.unary)
    node tag start [inside]
  | none => trailing g

/-- An operand and the binary operators after it that bind more tightly than `floor`. Operators of
one level associate to the left. -/
def binary (g : Grammar) (floor : Precedence) (noIn : Bool) : Production Concrete := do
  iterate (← unary g) fun left => do
    let operator ← current
    if noIn && operator == .inKeyword then return .inr left
    match operator.binaryPrecedence? with
    | none => return .inr left
    | some precedence =>
      if precedence.level ≤ floor.level then return .inr left
      discard advance
      let right ← g.binary precedence noIn
      return .inl (← node operator left.start [left, right])

/-- A choice between two values. -/
def conditional (g : Grammar) (noIn : Bool) : Production Concrete := do
  let condition ← binary g .lowest noIn
  if ← eat .question then
    let whenTrue ← g.assignment false
    expect .colon
    let whenFalse ← g.assignment noIn
    node .question condition.start [condition, whenTrue, whenFalse]
  else
    return condition

/-- An expression without commas. -/
def assignment (g : Grammar) (noIn : Bool) : Production Concrete := nested do
  if ← sees .yieldKeyword then yieldExpression g noIn
  else
    let target ← conditional g noIn
    let operator ← current
    if operator.isAssignmentOperator then
      discard advance
      let value ← g.assignment noIn
      node operator target.start [target, value]
    else
      return target

end ScriptTree.Production
