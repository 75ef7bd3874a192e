import ScriptTree.Production.Expression

/-! Statements. -/
namespace ScriptTree.Production

/-- A declaring keyword and the names after it, without the end of the statement. -/
def declarations (g : Grammar) (noIn : Bool) : Production Concrete := do
  let keyword ← current
  let start ← advance
  let declarators ← separated do
    let name ← identifier
    if ← eat .equals then
      let value ← g.assignment noIn
      node .equals name.start [name, value]
    else
      return name
  node keyword start declarators

def constStatement (g : Grammar) : Production Concrete := do
  let start ← index
  let declared ← declarations g false
  endStatement
  let last := (← get).last? (← read)
  return { declared with stop := last.filter (start ≤ ·) }

/-- An expression in parentheses that belong to the statement. -/
def condition (g : Grammar) : Production Concrete := do
  expect .openParen
  let inside ← expression g false
  expect .closeParen
  return inside

def ifStatement (g : Grammar) : Production Concrete := do
  let start ← advance
  let test ← condition g
  let consequence ← g.statement
  let alternative ← if ← eat .elseKeyword then pure [← g.statement] else pure []
  node .ifKeyword start (test :: consequence :: alternative)

/-- A loop that tests at its end. The semicolon after it may always be left out. -/
def doStatement (g : Grammar) : Production Concrete := do
  let start ← advance
  let body ← g.statement
  expect .whileKeyword
  let test ← condition g
  discard (eat .semicolon)
  node .doKeyword start [body, test]

def whileStatement (g : Grammar) : Production Concrete := do
  let start ← advance
  let test ← condition g
  let body ← g.statement
  node .whileKeyword start [test, body]

/-- The head of a loop over the properties of an object. -/
def forIteration (g : Grammar) (start : Nat) (item : Concrete) : Production Concrete := do
  discard advance
  let object ← expression g false
  node .forIter start [item, object]

/-- The `Expr` node around a clause of a loop head. -/
def clause (t : Concrete) : Concrete := .inner .expr t.start t.lastToken? [t]

/-- A clause of a loop head, which may be left out before a token of the given kind. -/
def optionalClause (g : Grammar) (before : Kind) : Production Concrete := do
  if ← sees before then return .absent .expr (← index)
  else return clause (← expression g false)

/-- The head of a loop with three clauses, the first of which is read already if it is there. -/
def forSteps (g : Grammar) (start : Nat) (first : Option Concrete) : Production Concrete := do
  let initial ← match first with
    | some t => pure (clause t)
    | none => pure (.absent .expr (← index))
  expect .semicolon
  let test ← optionalClause g .semicolon
  expect .semicolon
  let step ← optionalClause g .closeParen
  node .forStep start [initial, test, step]

/-- The head of a loop. -/
def forHead (g : Grammar) : Production Concrete := do
  let start ← index
  if ← sees .semicolon then forSteps g start none
  else
    let first ← if ← sees .varKeyword then declarations g true else expression g true
    if ← sees .inKeyword then forIteration g start first else forSteps g start (some first)

/-- A loop. The word `each` is for loops over properties only. -/
def forStatement (g : Grammar) : Production Concrete := do
  let start ← advance
  let each ← eat .eachKeyword
  expect .openParen
  let headToken ← token?
  let head ← forHead g
  expect .closeParen
  let body ← g.statement
  if each && head.kind == .forIter then
    node .forEach start [head, body]
  else
    if each then reportAt headToken .expected [Kind.inKeyword.describe]
    node .forKeyword start [head, body]

/-- A `break` or `continue` with its label, which stands on the same line. -/
def jumpStatement : Production Concrete := do
  let kind ← current
  let start ← advance
  let labelled := (← current).isIdentifier && !(← afterLineBreak)
  let label ← if labelled then pure [← leaf .identifier] else pure []
  endStatement
  node kind start label

/-- A `return` with its value, which begins on the same line. -/
def returnStatement (g : Grammar) : Production Concrete := do
  let start ← advance
  let k ← current
  let bare := k == .semicolon || k == .closeBrace || k == .endOfFile || (← afterLineBreak)
  let value ← if bare then pure [] else pure [← expression g false]
  endStatement
  node .returnKeyword start value

def throwStatement (g : Grammar) : Production Concrete := do
  let start ← advance
  let value ← expression g false
  endStatement
  node .throwKeyword start [value]

def withStatement (g : Grammar) : Production Concrete := do
  let start ← advance
  let object ← condition g
  let body ← g.statement
  node .withKeyword start [object, body]

/-- Whether a clause of a switch ends here: at the next clause or at the closing brace. -/
def atClauseEnd : Production Bool := do
  match ← current with
  | .caseKeyword | .closeBrace => return true
  | .defaultKeyword => return (← peek 1) != .xmlKeyword
  | _ => return false

/-- Read over tokens up to the end of a clause. -/
def skipToClauseEnd : Production Unit :=
  iterate () fun _ => do
    if (← atEnd) || (← atClauseEnd) then return .inr ()
    discard advance
    return .inl ()

def caseClause (g : Grammar) : Production Concrete := do
  let start ← advance
  let test ← expression g false
  expect .colon
  let body ← statements g atClauseEnd
  node .caseKeyword start (test :: body)

def defaultClause (g : Grammar) : Production Concrete := do
  let start ← advance
  expect .colon
  let body ← statements g atClauseEnd
  node .defaultKeyword start body

def switchStatement (g : Grammar) : Production Concrete := do
  let start ← advance
  let subject ← condition g
  expect .openBrace
  let clauses ← iterate ([] : List Concrete) fun clauses => do
    if (← atEnd) || (← sees .closeBrace) then return .inr clauses.reverse
    let k ← current
    if k == .caseKeyword then
      return .inl ((← caseClause g) :: clauses)
    else if k == .defaultKeyword && (← atClauseEnd) then
      return .inl ((← defaultClause g) :: clauses)
    else
      reportUnexpected
      skipToClauseEnd
      return .inl clauses
  expect .closeBrace
  node .switchKeyword start (subject :: clauses)

def catchClause (g : Grammar) : Production Concrete := do
  let start ← advance
  expect .openParen
  let exception ← identifier
  let filter ← if ← sees .ifKeyword then pure [← exceptionFilter] else pure []
  expect .closeParen
  let body ← block g
  node .catchKeyword start (exception :: filter ++ [body])
where
  /-- A condition on the exception. -/
  exceptionFilter : Production Concrete := do
    let start ← advance
    let test ← expression g false
    node .ifKeyword start [test]

def finallyClause (g : Grammar) : Production Concrete := do
  let start ← advance
  let body ← block g
  node .finallyKeyword start [body]

def tryStatement (g : Grammar) : Production Concrete := do
  let start ← advance
  let body ← block g
  let catches ← iterate ([] : List Concrete) fun catches => do
    if ← sees .catchKeyword then return .inl ((← catchClause g) :: catches)
    else return .inr catches.reverse
  let last ← if ← sees .finallyKeyword then pure [← finallyClause g] else pure []
  let clauses := catches ++ last
  if clauses.isEmpty then reportExpected .catchKeyword
  node .tryKeyword start (body :: clauses)

/-- The leaf of a token that has to be there. -/
def requiredLeaf (k : Kind) : Production (List Concrete) := do
  if ← sees k then return [← leaf k]
  else
    reportExpected k
    return []

/-- The choice of a namespace for XML names. -/
def defaultXmlNamespace (g : Grammar) : Production Concrete := do
  let start ← index
  let default ← leaf .defaultKeyword
  let xml ← leaf .xmlKeyword
  let namespaceWord ← requiredLeaf .namespaceKeyword
  let equals ← requiredLeaf .equals
  let value ← expression g false
  endStatement
  node .defaultXmlNamespace start (default :: xml :: namespaceWord ++ equals ++ [value])

def labelledStatement (g : Grammar) : Production Concrete := do
  let start ← index
  let label ← leaf .identifier
  discard advance
  let body ← g.statement
  node .labelled start [label, body]

/-- An expression as a statement. Its node does not take in the semicolon. -/
def expressionStatement (g : Grammar) : Production Concrete := do
  let value ← expression g false
  unless value.isEmpty do
    endStatement
  return value

def emptyStatement : Production Concrete := do
  let start ← advance
  return .inner .emptyStatement start (some start) []

def variableStatement (g : Grammar) : Production Concrete := do
  let declared ← declarations g false
  endStatement
  return declared

/-- A statement, told by its first token and sometimes the second. -/
def statement (g : Grammar) : Production Concrete := nested do
  match ← current with
  | .openBrace => block g
  | .semicolon => emptyStatement
  | .varKeyword => variableStatement g
  | .constKeyword => constStatement g
  | .functionKeyword => function g true
  | .ifKeyword => ifStatement g
  | .doKeyword => doStatement g
  | .whileKeyword => whileStatement g
  | .forKeyword => forStatement g
  | .breakKeyword | .continueKeyword => jumpStatement
  | .returnKeyword => returnStatement g
  | .throwKeyword => throwStatement g
  | .withKeyword => withStatement g
  | .switchKeyword => switchStatement g
  | .tryKeyword => tryStatement g
  | k =>
    if k == .defaultKeyword && (← peek 1) == .xmlKeyword then defaultXmlNamespace g
    else if k.isIdentifier && (← peek 1) == .colon then labelledStatement g
    else expressionStatement g

end ScriptTree.Production
