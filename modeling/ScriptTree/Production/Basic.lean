import ScriptTree.Concrete
import ScriptTree.Diagnostic
import ScriptTree.Kind.Spelling
import ScriptTree.Text.LineMap
import ScriptTree.Token

/-!
Reading significant tokens. A production is a step that reads tokens from a cursor and builds a
concrete tree. Wrong input is reported and read over; a production stops only when its nesting goes
past a limit.
-/
namespace ScriptTree

/-- A token and its place in the full list. -/
structure Placed where
  index : Nat
  token : Token
  deriving DecidableEq, Repr

/-- What stays the same while tokens are read. -/
structure Input where
  significant : Array Placed
  /-- The length of the full list. -/
  count : Nat
  lines : LineMap
  /-- How deep productions may nest. -/
  limit : Nat

/-- The nesting limit of a script. -/
def Input.defaultLimit : Nat := 200

def Input.ofTokens (tokens : Array Token) (lines : LineMap)
    (limit : Nat := Input.defaultLimit) : Input where
  significant := (tokens.mapIdx fun index token => ⟨index, token⟩).filter (!·.token.isHidden)
  count := tokens.size
  lines := lines
  limit := limit

/-- How much has been read, and what was reported on the way. -/
structure Cursor where
  /-- The number of significant tokens that were read. -/
  pos : Nat := 0
  /-- The number of nested productions being read. -/
  depth : Nat := 0
  problems : Diagnostics := #[]

/-- Why no tree is built. -/
inductive Halt where
  /-- The nesting went past `limit` at the token of place `index`. -/
  | tooDeep (limit index : Nat)
  /-- The allowance of nested calls ran out, which the limit on nesting prevents. -/
  | exhausted
  deriving DecidableEq, Repr

def Halt.message : Halt → String
  | .tooDeep limit index => s!"nesting exceeds {limit} levels at token {index}"
  | .exhausted => "nested calls exhausted"

abbrev Production := ReaderT Input (EStateM Halt Cursor)

namespace Cursor

/-- Before the first token. -/
def initial : Cursor := {}

/-- What was reported so far, and the cursor that has it no more. -/
def takeProblems (c : Cursor) : Diagnostics × Cursor := (c.problems, { c with problems := #[] })

/-- The token `ahead` tokens after the current one. -/
def token? (c : Cursor) (input : Input) (ahead : Nat := 0) : Option Placed :=
  input.significant[c.pos + ahead]?

def kind (c : Cursor) (input : Input) (ahead : Nat := 0) : Kind :=
  match c.token? input ahead with
  | some placed => placed.token.kind
  | none => .endOfFile

/-- The place of the current token, past the list at the end. -/
def index (c : Cursor) (input : Input) : Nat :=
  match c.token? input with
  | some placed => placed.index
  | none => input.count

/-- The place of the last token that was read. -/
def last? (c : Cursor) (input : Input) : Option Nat :=
  if c.pos = 0 then none else input.significant[c.pos - 1]?.map (·.index)

end Cursor

namespace Production

/-- Repeat `step` from `a` on until it gives a result, at most `n` times. -/
def repeating {α β : Type} (step : α → Production (α ⊕ β)) : Nat → α → Production β
  | 0, _ => throw .exhausted
  | n + 1, a => do
    match ← step a with
    | .inl next => repeating step n next
    | .inr result => pure result

/-- Repeat `step` from `a` on until it gives a result. Each step but the last reads a token, so
there are no more steps than the tokens allow. -/
def iterate {α β : Type} (a : α) (step : α → Production (α ⊕ β)) : Production β := do
  repeating step ((← read).count + 1) a

def current : Production Kind := do return (← get).kind (← read)

def peek (ahead : Nat) : Production Kind := do return (← get).kind (← read) ahead

/-- Whether the current token is of the given kind. -/
def sees (k : Kind) : Production Bool := do return (← current) == k

def atEnd : Production Bool := do return (← read).significant.size ≤ (← get).pos

def index : Production Nat := do return (← get).index (← read)

def token? : Production (Option Placed) := do return (← get).token? (← read)

def afterLineBreak : Production Bool := do
  return (← token?).any (·.token.lineBreakBefore)

/-- Read the current token, if there is one, and give its place. -/
def advance : Production Nat := do
  let index ← index
  unless ← atEnd do
    modify fun c => { c with pos := c.pos + 1 }
  return index

/-- Read a token of the given kind, if it is the current one. -/
def eat (k : Kind) : Production Bool := do
  if ← sees k then
    discard advance
    return true
  else
    return false

/-- The diagnostic that puts a message at a token, or at no place without one. -/
def diagnosticAt (lines : LineMap) (place : Option Placed) (m : Message) (args : List String) :
    Diagnostic :=
  match place with
  | some { token, .. } =>
    let line := token.line - 1
    .located ⟨lines.offsetOf line token.column, token.length⟩ line m args
  | none => .ofMessage m args

/-- Report at a given token. -/
def reportAt (place : Option Placed) (m : Message) (args : List String) : Production Unit := do
  let lines := (← read).lines
  modify fun c => { c with problems := c.problems.push (diagnosticAt lines place m args) }

/-- Report at the current token, or at the last one when all are read. -/
def report (m : Message) (args : List String) : Production Unit := do
  reportAt ((← token?).or (← read).significant.back?) m args

/-- The current token as messages show it. -/
def shown : Production String := do
  return match ← token? with
  | some { token, .. } => token.quoted
  | none => "<EOF>"

/-- Report that something else was expected. -/
def reportExpected (k : Kind) : Production Unit := do
  if ← atEnd then report .expected [k.describe]
  else report .mismatched [← shown, k.describe]

/-- Report that no operand can begin here. -/
def reportUnexpected : Production Unit := do
  if ← atEnd then report .expected ["expression"]
  else report .unexpected [← shown]

/-- Report that the current token is none of a set. -/
def reportSet (set : String) : Production Unit := do
  report .mismatchedSet [← shown, set]

/-- Read a token of the given kind. One token too many before it is read over; otherwise the token
is reported as missing and nothing is read. -/
def expect (k : Kind) : Production Unit := do
  if ← sees k then
    discard advance
  else if !(← atEnd) && (← peek 1) == k then
    report .unexpected [← shown]
    discard advance
    discard advance
  else
    reportExpected k

/-- Read the end of a statement. The semicolon may be left out before the end of the input, before
a closing brace and where a line ends. -/
def endStatement : Production Unit := do
  if ← eat .semicolon then return
  if (← atEnd) || (← sees .closeBrace) || (← afterLineBreak) then return
  report .mismatched [← shown, "';'"]

/-- The inner node that begins at token `start` and ends with the last token read. -/
def node (kind : Kind) (start : Nat) (children : List Concrete) : Production Concrete := do
  let last := (← get).last? (← read)
  return .inner kind start (last.filter (start ≤ ·)) children

/-- Read the current token into a leaf. -/
def leaf (kind : Kind) : Production Concrete := do
  let text := match ← token? with
    | some { token, .. } => token.text
    | none => ""
  return .leaf kind (← advance) text

/-- A node for something that is missing. It stands right after the last token read, so that it
lies inside the node being built. -/
def missing (kind : Kind) : Production Concrete := do
  let index ← index
  let start := match (← get).last? (← read) with
    | some last => min (last + 1) index
    | none => index
  return .absent kind start

/-- Go one level deeper, unless that is past the limit. -/
def enter : Production Unit := do
  modify fun c => { c with depth := c.depth + 1 }
  let limit := (← read).limit
  if limit < (← get).depth then
    report .tooDeep [toString limit]
    throw (.tooDeep limit (← index))

/-- Run `body` and come back from its level, also when it stops. -/
def leaving {α : Type} (body : Production α) : Production α := fun input c =>
  match body input c with
  | .ok a c => .ok a { c with depth := c.depth - 1 }
  | .error e c => .error e { c with depth := c.depth - 1 }

/-- Run `body` one level deeper. -/
def nested {α : Type} (body : Production α) : Production α := do
  enter
  leaving body

end Production
end ScriptTree
