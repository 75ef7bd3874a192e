import ScriptTree.Lowering.Expression

/-!
Statements. The end of a statement belongs to it if it is a semicolon; an expression knows nothing
of the semicolon after it, so an expression statement looks for one up to the end of the node around
it.
-/
namespace ScriptTree.Lowering

/-- The semicolon between the parts of a statement and its end. -/
def semicolon? (cx : Lowering) (t : Concrete) (from? : Option Concrete) : Option Nat :=
  cx.position? .semicolon ((from?.map (·.after)).getD (t.start + 1)) t.after

/-- The next significant token in `start` to `bound`, if it is a semicolon. -/
def terminator? (cx : Lowering) (start bound : Nat) : Option Nat := do
  if bound ≤ start then none
  let index ← cx.nextSignificant? start (bound - 1)
  let token ← cx.tokens[index]?
  if token.kind = .semicolon then some (cx.offset index) else none

/-- An expression in the place of a statement, with the semicolon that directly follows it. -/
def expressionStatement (cx : Lowering) (b : Builder) (t : Concrete) (a : Ancestry)
    (bound : Nat) : Lowered Node := do
  let inside ← b.expression t (a.enter .expressionStatement)
  let semicolon := if t.isEmpty then none else cx.terminator? t.after bound
  let range := match semicolon with
    | some pos => .between inside.range.start (pos + 1)
    | none => inside.range
  return .expressionStatement range inside semicolon

def constStatement (cx : Lowering) (b : Builder) (t : Concrete) (a : Ancestry) :
    Lowered Node := do
  let word ← cx.keyword .constKeyword t.start
  let declarations ← t.children.mapM (cx.declarator b · (a.enter .constStatement))
  let commas ← cx.commas t.children
  return .constStatement (cx.rangeOf t) word declarations commas
    (cx.semicolon? t t.children.getLast?)

def ifStatement (cx : Lowering) (b : Builder) (t : Concrete) (a : Ancestry) : Lowered Node := do
  let inside := a.enter .ifStatement
  let word ← cx.keyword .ifKeyword t.start
  let conditionTree ← child t 0 "condition"
  let thenTree ← child t 1 "statement"
  let condition ← b.expression conditionTree inside
  let thenStatement ← b.statement thenTree inside t.after
  let elseTree := t.child? 2
  let elseStatement ← elseTree.mapM (b.statement · inside t.after)
  return .ifStatement (cx.rangeOf t) word
    (cx.position? .openParen (t.start + 1) conditionTree.start) condition
    (cx.position? .closeParen conditionTree.after thenTree.start) thenStatement
    (elseTree.bind fun e => cx.keyword? .elseKeyword thenTree.after e.start) elseStatement

def whileStatement (cx : Lowering) (b : Builder) (t : Concrete) (a : Ancestry) :
    Lowered Node := do
  let inside := a.enter .whileStatement
  let word ← cx.keyword .whileKeyword t.start
  let conditionTree ← child t 0 "condition"
  let bodyTree ← child t 1 "body"
  let condition ← b.expression conditionTree inside
  let body ← b.statement bodyTree inside t.after
  return .whileStatement (cx.rangeOf t) word
    (cx.position? .openParen (t.start + 1) conditionTree.start) condition
    (cx.position? .closeParen conditionTree.after bodyTree.start) body

def doWhileStatement (cx : Lowering) (b : Builder) (t : Concrete) (a : Ancestry) :
    Lowered Node := do
  let inside := a.enter .doWhileStatement
  let word ← cx.keyword .doKeyword t.start
  let bodyTree ← child t 0 "body"
  let conditionTree ← child t 1 "condition"
  let body ← b.statement bodyTree inside t.after
  let condition ← b.expression conditionTree inside
  let whileIndex := cx.index? .whileKeyword bodyTree.after conditionTree.start
  let parenFrom := (whileIndex.map (· + 1)).getD bodyTree.after
  return .doWhileStatement (cx.rangeOf t) word body (whileIndex.bind cx.keywordAt?)
    (cx.position? .openParen parenFrom conditionTree.start) condition
    (cx.position? .closeParen conditionTree.after t.after)
    (cx.position? .semicolon conditionTree.after t.after)

/-- A loop with an initial step, a condition and a step between rounds. -/
def forStatement (cx : Lowering) (b : Builder) (t head bodyTree : Concrete) (a : Ancestry) :
    Lowered Node := do
  let inside := a.enter .forStatement
  let word ← cx.keyword .forKeyword t.start
  let initialTree ← child head 0 "initializer"
  let conditionTree ← child head 1 "condition"
  let stepTree ← child head 2 "step"
  let initial ← b.expression initialTree inside
  let condition ← b.expression conditionTree inside
  let step ← b.expression stepTree inside
  let body ← b.statement bodyTree inside t.after
  return .forStatement (cx.rangeOf t) word
    (cx.position? .openParen (t.start + 1) head.start) initial
    (cx.position? .semicolon initialTree.after conditionTree.start) condition
    (cx.position? .semicolon conditionTree.after stepTree.start) step
    (cx.position? .closeParen stepTree.after bodyTree.start) body

/-- A loop over the names, or with `each` the values, of an object. -/
def forInStatement (cx : Lowering) (b : Builder) (t head bodyTree : Concrete) (a : Ancestry) :
    Lowered Node := do
  let isEach := t.kind == .forEach
  let inside := a.enter (if isEach then .forEachInStatement else .forInStatement)
  let word ← cx.keyword .forKeyword t.start
  let eachKeyword :=
    if isEach then cx.keyword? .eachKeyword (t.start + 1) head.start else none
  let itemTree ← child head 0 "item"
  let iteratorTree ← child head 1 "iterator"
  let inKeyword ← match cx.keyword? .inKeyword itemTree.after iteratorTree.start with
    | some word => .ok word
    | none => .error (.tokenNotFound .inKeyword itemTree.after iteratorTree.start)
  let item ← b.expression itemTree inside
  let iterator ← b.expression iteratorTree inside
  let body ← b.statement bodyTree inside t.after
  return .forInStatement (cx.rangeOf t) word eachKeyword
    (cx.position? .openParen (t.start + 1) head.start) item inKeyword iterator
    (cx.position? .closeParen iteratorTree.after bodyTree.start) body

/-- A `for` loop. Its head tells which. -/
def forLoop (cx : Lowering) (b : Builder) (t : Concrete) (a : Ancestry) : Lowered Node := do
  let head ← child t 0 "loop head"
  let body ← child t 1 "body"
  match t.kind, head.kind with
  | .forKeyword, .forStep => cx.forStatement b t head body a
  | _, .forIter => cx.forInStatement b t head body a
  | _, found => throw (.unexpectedNode found .forStatement)

def caseClause (cx : Lowering) (b : Builder) (t : Concrete) (a : Ancestry) : Lowered Node := do
  let inside := a.enter .caseClause
  let word ← cx.keyword .caseKeyword t.start
  let conditionTree ← child t 0 "condition"
  let bodyTrees := t.children.drop 1
  let condition ← b.expression conditionTree inside
  let statements ← bodyTrees.mapM (b.statement · inside t.after)
  return .caseClause (cx.rangeOf t) word condition
    (cx.position? .colon conditionTree.after (firstStart bodyTrees t.after)) statements

def defaultClause (cx : Lowering) (b : Builder) (t : Concrete) (a : Ancestry) :
    Lowered Node := do
  let word ← cx.keyword .defaultKeyword t.start
  let statements ← t.children.mapM (b.statement · (a.enter .defaultClause) t.after)
  return .defaultClause (cx.rangeOf t) word
    (cx.position? .colon (t.start + 1) (firstStart t.children t.after)) statements

def switchClause (cx : Lowering) (b : Builder) (t : Concrete) (a : Ancestry) : Lowered Node :=
  match t.kind with
  | .caseKeyword => cx.caseClause b t a
  | .defaultKeyword => cx.defaultClause b t a
  | found => .error (.unexpectedNode found .switchStatement)

/-- A switch. Its clauses are put into the order of the source. -/
def switchStatement (cx : Lowering) (b : Builder) (t : Concrete) (a : Ancestry) :
    Lowered Node := do
  let inside := a.enter .switchStatement
  let word ← cx.keyword .switchKeyword t.start
  let conditionTree ← child t 0 "condition"
  let clauseTrees := sorted (t.children.drop 1)
  let bodyStart := firstStart clauseTrees t.after
  let openBrace := cx.index? .openBrace conditionTree.after bodyStart
  let clausesEnd := (clauseTrees.map (·.after)).max?.getD
    ((openBrace.map (· + 1)).getD conditionTree.after)
  let clauses ← clauseTrees.mapM (cx.switchClause b · inside)
  let condition ← b.expression conditionTree inside
  return .switchStatement (cx.rangeOf t) word
    (cx.position? .openParen (t.start + 1) conditionTree.start) condition
    (cx.position? .closeParen conditionTree.after (openBrace.getD bodyStart))
    (openBrace.map cx.offset) clauses (cx.position? .closeBrace clausesEnd t.after)

def exceptionFilter (cx : Lowering) (b : Builder) (t : Concrete) (a : Ancestry) :
    Lowered Node := do
  let word ← cx.keyword .ifKeyword t.start
  let conditionTree ← child t 0 "condition"
  return .exceptionFilter (cx.rangeOf t) word
    (← b.expression conditionTree (a.enter .exceptionFilter))

/-- The first and the last of at least two trees. -/
def firstAndLast? : List Concrete → Option (Concrete × Concrete)
  | first :: second :: rest => some (first, rest.getLast?.getD second)
  | _ => none

def catchClause (cx : Lowering) (b : Builder) (t : Concrete) (a : Ancestry) : Lowered Node := do
  let inside := a.enter .catchClause
  let word ← cx.keyword .catchKeyword t.start
  let (exceptionTree, bodyTree) ← match firstAndLast? t.children with
    | some trees => .ok trees
    | none => .error (.missingChild t.kind "block")
  let filterTree := (t.child? 1).filter (·.kind == .ifKeyword)
  let filter ← filterTree.mapM (cx.exceptionFilter b · inside)
  let exception ← cx.identifier exceptionTree inside
  let body ← cx.block b bodyTree inside
  return .catchClause (cx.rangeOf t) word
    (cx.position? .openParen (t.start + 1) exceptionTree.start) exception filter
    (cx.position? .closeParen (filterTree.getD exceptionTree).after bodyTree.start) body

def finallyClause (cx : Lowering) (b : Builder) (t : Concrete) (a : Ancestry) :
    Lowered Node := do
  let word ← cx.keyword .finallyKeyword t.start
  let bodyTree ← child t 0 "block"
  return .finallyClause (cx.rangeOf t) word (← cx.block b bodyTree (a.enter .finallyClause))

/-- The clauses of a `try`: those that catch, and the last one that always runs. -/
def tryClauses (cx : Lowering) (b : Builder) (a : Ancestry) :
    List Concrete → Lowered (List Node × Option Node)
  | [] => return ([], none)
  | t :: rest => do
    match t.kind with
    | .catchKeyword =>
      let clause ← cx.catchClause b t a
      let (catches, final) ← cx.tryClauses b a rest
      return (clause :: catches, final)
    | .finallyKeyword =>
      let clause ← cx.finallyClause b t a
      let (catches, final) ← cx.tryClauses b a rest
      return (catches, final.or (some clause))
    | found => throw (.unexpectedNode found .tryStatement)

def tryStatement (cx : Lowering) (b : Builder) (t : Concrete) (a : Ancestry) :
    Lowered Node := do
  let inside := a.enter .tryStatement
  let word ← cx.keyword .tryKeyword t.start
  let body ← cx.block b (← child t 0 "block") inside
  let (catches, final) ← cx.tryClauses b inside (t.children.drop 1)
  return .tryStatement (cx.rangeOf t) word body catches final

def throwStatement (cx : Lowering) (b : Builder) (t : Concrete) (a : Ancestry) :
    Lowered Node := do
  let exceptionTree ← child t 0 "exception"
  let word ← cx.keyword .throwKeyword t.start
  let exception ← b.expression exceptionTree (a.enter .throwStatement)
  return .throwStatement (cx.rangeOf t) word exception (cx.semicolon? t (some exceptionTree))

def returnStatement (cx : Lowering) (b : Builder) (t : Concrete) (a : Ancestry) :
    Lowered Node := do
  let value ← (t.child? 0).mapM (b.expression · (a.enter .returnStatement))
  let word ← cx.keyword .returnKeyword t.start
  return .returnStatement (cx.rangeOf t) word value (cx.semicolon? t (t.child? 0))

/-- A `break` or `continue`. -/
def jumpStatement (cx : Lowering) (t : Concrete) : Lowered Node := do
  let word ← cx.keyword t.kind t.start
  return .jumpStatement (cx.rangeOf t) word ((t.child? 0).map cx.label)
    (cx.semicolon? t (t.child? 0))

def labelledStatement (cx : Lowering) (b : Builder) (t : Concrete) (a : Ancestry) :
    Lowered Node := do
  let labelTree ← child t 0 "label"
  let statementTree ← child t 1 "statement"
  let statement ← b.statement statementTree (a.enter .labelledStatement) t.after
  return .labelledStatement (cx.rangeOf t) (cx.label labelTree)
    (cx.position? .colon labelTree.after statementTree.start) statement

def withStatement (cx : Lowering) (b : Builder) (t : Concrete) (a : Ancestry) :
    Lowered Node := do
  let inside := a.enter .withStatement
  let objectTree ← child t 0 "object"
  let statementTree ← child t 1 "statement"
  let word ← cx.keyword .withKeyword t.start
  let object ← b.expression objectTree inside
  let statement ← b.statement statementTree inside t.after
  return .withStatement (cx.rangeOf t) word
    (cx.position? .openParen (t.start + 1) objectTree.start) object
    (cx.position? .closeParen objectTree.after statementTree.start) statement

/-- The `namespace` keyword and the equals sign among the middle parts of a statement that sets the
default XML namespace. The last of each counts. -/
def namespaceParts (cx : Lowering) : List Concrete → Lowered (Option Keyword × Option Nat)
  | [] => return (none, none)
  | t :: rest => do
    match t.kind with
    | .namespaceKeyword =>
      let word ← cx.keyword .namespaceKeyword t.start
      let (later, assign) ← cx.namespaceParts rest
      return (later.or (some word), assign)
    | .equals =>
      let (word, later) ← cx.namespaceParts rest
      return (word, later.or (some (cx.offset t.start)))
    | found => throw (.unexpectedNode found .defaultXmlNamespaceStatement)

def defaultXmlNamespace (cx : Lowering) (b : Builder) (t : Concrete) (a : Ancestry) :
    Lowered Node := do
  match t.children with
  | defaultTree :: xmlTree :: next :: rest =>
    let valueTree := rest.getLast?.getD next
    let (namespaceKeyword, assign) ← cx.namespaceParts (next :: rest).dropLast
    let word ← cx.keyword .defaultKeyword defaultTree.start
    let xmlKeyword ← cx.keyword .xmlKeyword xmlTree.start
    let value ← b.expression valueTree (a.enter .defaultXmlNamespaceStatement)
    return .defaultXmlNamespaceStatement (cx.rangeOf t) word xmlKeyword namespaceKeyword assign
      value (cx.semicolon? t (some valueTree))
  | _ => throw (.missingChild t.kind "value")

/-- Whether a function has a name, so that it may stand as a statement. -/
def isNamed (t : Concrete) : Bool := (t.child? 0).any (·.kind == .identifier)

/-- A statement, told by its tag. What is no statement of its own is an expression. -/
def statement (cx : Lowering) (limit : Nat) (b : Builder) (t : Concrete) (a : Ancestry)
    (bound : Nat) : Lowered Node := do
  guard limit a
  match t.kind with
  | .block => cx.block b t a
  | .emptyStatement => return .emptyStatement (cx.rangeOf t)
  | .constKeyword => cx.constStatement b t a
  | .ifKeyword => cx.ifStatement b t a
  | .whileKeyword => cx.whileStatement b t a
  | .doKeyword => cx.doWhileStatement b t a
  | .forKeyword | .forEach => cx.forLoop b t a
  | .switchKeyword => cx.switchStatement b t a
  | .tryKeyword => cx.tryStatement b t a
  | .throwKeyword => cx.throwStatement b t a
  | .returnKeyword => cx.returnStatement b t a
  | .breakKeyword | .continueKeyword => cx.jumpStatement t
  | .labelled => cx.labelledStatement b t a
  | .withKeyword => cx.withStatement b t a
  | .defaultXmlNamespace => cx.defaultXmlNamespace b t a
  | .functionKeyword =>
    if isNamed t then cx.function b t a else cx.expressionStatement b t a bound
  | _ => cx.expressionStatement b t a bound

end ScriptTree.Lowering
