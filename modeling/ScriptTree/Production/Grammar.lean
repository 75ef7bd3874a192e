import ScriptTree.Precedence
import ScriptTree.Production.Basic

/-!
Productions that hold a list of others. The productions of the language nest in each other, and
`Grammar` is the record of those that do: every rule is written as a plain function of the grammar
for the parts inside it. The knot is tied at the end, where the rules are complete.
-/
namespace ScriptTree

/-- The productions that may occur inside others. -/
structure Grammar where
  statement : Production Concrete
  /-- An expression without commas. The flag keeps `in` from being read as an operator. -/
  assignment : (noIn : Bool) → Production Concrete
  /-- An operand and the binary operators after it that bind more tightly than `floor`. -/
  binary : (floor : Precedence) → (noIn : Bool) → Production Concrete
  /-- An operand with its prefix operators. -/
  unary : Production Concrete
  /-- An operand with the member accesses and, if they are allowed, the calls after it. -/
  member : (calls : Bool) → Production Concrete

namespace Production

/-- Items with commas between them, at least one. -/
def separated (item : Production Concrete) : Production (List Concrete) :=
  iterate ([] : List Concrete) fun items => do
    let items := (← item) :: items
    return if ← eat .comma then .inl items else .inr items.reverse

/-- A name, or a node for the missing one. -/
def identifier : Production Concrete := do
  if (← current).isIdentifier then leaf .identifier
  else
    reportExpected .identifier
    missing .identifier

/-- Whether a statement may begin with a token of this kind, for the purpose of going on after an
error. -/
def startsStatement : Kind → Bool
  | .openBrace | .closeBrace | .openParen | .openBracket | .semicolon | .plus | .minus | .plusPlus
  | .minusMinus | .exclamation | .tilde | .unknown | .breakKeyword | .constKeyword
  | .continueKeyword | .deleteKeyword | .doKeyword | .falseKeyword | .forKeyword
  | .functionKeyword | .ifKeyword | .newKeyword | .nullKeyword | .returnKeyword | .switchKeyword
  | .thisKeyword | .throwKeyword | .trueKeyword | .tryKeyword | .typeOfKeyword | .varKeyword
  | .voidKeyword | .whileKeyword | .withKeyword | .yieldKeyword => true
  | k => k.isIdentifier || k.isLiteral

/-- Read over the current token and all after it that begin no statement. -/
def skipToStatement : Production Unit := do
  discard advance
  iterate () fun _ => do
    if (← atEnd) || startsStatement (← current) then return .inr ()
    discard advance
    return .inl ()

/-- Statements up to the end of the input or to where `stops` holds. A statement that reads nothing
is left out, and the tokens it could not begin with are read over. -/
def statements (g : Grammar) (stops : Production Bool) : Production (List Concrete) :=
  iterate ([] : List Concrete) fun done => do
    if (← atEnd) || (← stops) then return .inr done.reverse
    let before := (← get).pos
    let statement ← g.statement
    if (← get).pos == before then
      skipToStatement
      return .inl done
    else
      return .inl (statement :: done)

/-- Statements in braces. -/
def block (g : Grammar) : Production Concrete := do
  let start ← index
  expect .openBrace
  let children ← statements g (sees .closeBrace)
  expect .closeBrace
  node .block start children

/-- A function. One in statement position needs a name. -/
def function (g : Grammar) (isStatement : Bool) : Production Concrete := do
  let start ← advance
  let mut name := []
  if (← current).isIdentifier then
    name := [← leaf .identifier]
  else if isStatement then
    reportExpected .identifier
  let parametersStart ← index
  expect .openParen
  let names ← if ← sees .closeParen then pure [] else separated identifier
  expect .closeParen
  let parameters ← node .arguments parametersStart names
  let body ← block g
  node .functionKeyword start (name ++ [parameters, body])

end Production
end ScriptTree
