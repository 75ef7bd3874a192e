import ScriptTree.Concrete
import ScriptTree.Precedence
import ScriptTree.Token.Table

/-!
From concrete trees to syntax trees. The concrete tree gives the structure; the tokens that have no
node in it are found by a search between the nodes around them. The tree need not fit the tokens:
what cannot be built is an error.
-/
namespace ScriptTree

/-- Why no syntax tree is built. -/
inductive LoweringError where
  | tooDeep (limit : Nat)
  | unexpectedNode (found : Kind) (parent : NodeKind)
  | missingChild (parent : Kind) (what : String)
  | tokenNotFound (kind : Kind) (start stop : Nat)
  deriving DecidableEq, Repr

def LoweringError.message : LoweringError → String
  | .tooDeep limit => s!"nesting exceeds {limit} levels"
  | .unexpectedNode found parent => s!"unexpected {found.name} node in {parent.name}"
  | .missingChild parent what => s!"{parent.name} node has no {what}"
  | .tokenNotFound kind start stop => s!"no {kind.name} token in tokens {start}..{stop}"

abbrev Lowered := Except LoweringError

/-- Where a node stands: the kind of the node around it, and how many nodes are around it. -/
structure Ancestry where
  parent : NodeKind
  depth : Nat
  deriving DecidableEq, Repr

namespace Ancestry

/-- The place of a statement of a script. -/
def root : Ancestry := ⟨.script, 0⟩

/-- The place inside a node of kind `parent` that stands at `a`. -/
def enter (a : Ancestry) (parent : NodeKind) : Ancestry := ⟨parent, a.depth + 1⟩

end Ancestry

/-- How the parts inside a node are lowered. A statement is told the token that ends the node
around it. -/
structure Builder where
  expression : Concrete → Ancestry → Lowered Node
  statement : Concrete → Ancestry → (bound : Nat) → Lowered Node

/-- The tokens a concrete tree speaks of. -/
abbrev Lowering := TokenTable

namespace Lowering

/-- From the first token of a node to the end of its last one. -/
def rangeOf (cx : Lowering) (t : Concrete) : Range :=
  .between (cx.offset t.start) (cx.offset t.after)

/-- The range of a leaf, which is as long as its text. -/
def leafRange (cx : Lowering) (t : Concrete) : Range :=
  .ofLength (cx.offset t.start) t.content.utf8ByteSize

/-- The first token of a kind from `start` on and before `bound`. -/
def index? (cx : Lowering) (kind : Kind) (start bound : Nat) : Option Nat :=
  if start < bound then cx.find? kind start (bound - 1) else none

/-- The position of that token. -/
def position? (cx : Lowering) (kind : Kind) (start bound : Nat) : Option Nat :=
  (cx.index? kind start bound).map cx.offset

/-- The position of a token that has to be there. -/
def position (cx : Lowering) (kind : Kind) (start bound : Nat) : Lowered Nat :=
  match cx.position? kind start bound with
  | some pos => .ok pos
  | none => .error (.tokenNotFound kind start bound)

/-- The position of an operator. -/
def operatorPosition (cx : Lowering) (kind : Kind) (start bound : Nat) : Lowered Nat :=
  match if start < bound then cx.findOperator? kind start (bound - 1) else none with
  | some index => .ok (cx.offset index)
  | none => .error (.tokenNotFound kind start bound)

/-- The keyword that is token `index`. -/
def keywordAt? (cx : Lowering) (index : Nat) : Option Keyword :=
  cx.tokens[index]?.map fun token => ⟨.ofLength (cx.offset index) token.length, token.kind⟩

/-- The first keyword of a kind from `start` on and before `bound`. -/
def keyword? (cx : Lowering) (kind : Kind) (start bound : Nat) : Option Keyword :=
  (cx.index? kind start bound).bind cx.keywordAt?

/-- The keyword that token `index` has to be. -/
def keyword (cx : Lowering) (kind : Kind) (index : Nat) : Lowered Keyword :=
  match cx.keyword? kind index (index + 1) with
  | some word => .ok word
  | none => .error (.tokenNotFound kind index index)

/-- The positions of the commas between neighbours. -/
def commas (cx : Lowering) : List Concrete → Lowered (List Nat)
  | a :: b :: rest => do
    let first ← cx.position .comma a.after b.start
    return first :: (← cx.commas (b :: rest))
  | _ => return []

/-- A child that has to be there. -/
def child (t : Concrete) (i : Nat) (what : String) : Lowered Concrete :=
  match t.child? i with
  | some c => .ok c
  | none => .error (.missingChild t.kind what)

/-- The token after the last of some nodes, or `otherwise` if there are none. -/
def afterLast (ts : List Concrete) (otherwise : Nat) : Nat :=
  match ts.getLast? with
  | some t => t.after
  | none => otherwise

/-- The first token of some nodes, or `otherwise` if there are none. -/
def firstStart (ts : List Concrete) (otherwise : Nat) : Nat :=
  match ts.head? with
  | some t => t.start
  | none => otherwise

/-- The order of concrete nodes in the source: by their first tokens, then by their last ones. -/
def inOrder (a b : Concrete) : Bool :=
  a.start < b.start ||
    (a.start == b.start &&
      match a.lastToken?, b.lastToken? with
      | none, _ => true
      | some _, none => false
      | some m, some n => m ≤ n)

/-- Concrete nodes put into the order of the source. Nodes that are level stay as they were. -/
def sorted (ts : List Concrete) : List Concrete := ts.mergeSort inOrder

/-- A name. -/
def identifier (cx : Lowering) (t : Concrete) (a : Ancestry) : Lowered Node :=
  if t.kind = .identifier then .ok (.identifier (cx.leafRange t) t.content)
  else .error (.unexpectedNode t.kind a.parent)

def label (cx : Lowering) (t : Concrete) : Label := ⟨cx.leafRange t, t.content⟩

/-- Statements in braces. -/
def block (cx : Lowering) (b : Builder) (t : Concrete) (a : Ancestry) : Lowered Node := do
  if t.kind ≠ .block then throw (.unexpectedNode t.kind a.parent)
  let openBrace := cx.index? .openBrace t.start (t.start + 1)
  let statements ← t.children.mapM (b.statement · (a.enter .block) t.after)
  let bodyEnd := afterLast t.children ((openBrace.map (· + 1)).getD t.start)
  return .block (cx.rangeOf t) (openBrace.map cx.offset) statements
    (cx.position? .closeBrace bodyEnd t.after)

/-- The parts of a list in parentheses. -/
structure Listed where
  openParen : Option Nat
  items : List Node
  commas : List Nat
  closeParen : Option Nat

/-- A list in parentheses, with commas between its items. -/
def listed (cx : Lowering) (t : Concrete) (item : Concrete → Lowered Node) : Lowered Listed := do
  if t.kind ≠ .arguments then throw (.missingChild t.kind "argument list")
  let openParen := cx.index? .openParen t.start (firstStart t.children t.after)
  let items ← t.children.mapM item
  let itemsEnd := afterLast t.children ((openParen.map (· + 1)).getD t.start)
  return {
    openParen := openParen.map cx.offset
    items
    commas := ← cx.commas t.children
    closeParen := cx.position? .closeParen itemsEnd t.after }

/-- A function and its parameters. -/
def function (cx : Lowering) (b : Builder) (t : Concrete) (a : Ancestry) : Lowered Node := do
  let inside := a.enter .function
  let word ← cx.keyword .functionKeyword t.start
  let (nameTree, rest) : Option Concrete × List Concrete := match t.children with
    | first :: rest =>
      if first.kind = Kind.identifier then (some first, rest) else (none, t.children)
    | [] => (none, [])
  let (parameters, body) ← match rest with
    | [parameters, body] => .ok (parameters, body)
    | _ => .error (.missingChild t.kind "parameter list")
  let name ← nameTree.mapM (cx.identifier · inside)
  let list ← cx.listed parameters (cx.identifier · inside)
  return .function (cx.rangeOf t) word name list.openParen list.items list.commas list.closeParen
    (← cx.block b body inside)

/-- A declared name, with its first value if there is one. -/
def declarator (cx : Lowering) (b : Builder) (t : Concrete) (a : Ancestry) : Lowered Node := do
  match t.kind with
  | .identifier =>
    let name ← cx.identifier t a
    return .variableDeclarator name.range name none none
  | .equals =>
    let inside := a.enter .variableDeclarator
    let nameTree ← child t 0 "name"
    let valueTree ← child t 1 "initializer"
    let name ← cx.identifier nameTree inside
    let value ← b.expression valueTree inside
    return .variableDeclarator (cx.rangeOf t) name
      (cx.position? .equals nameTree.after valueTree.start) (some value)
  | found => throw (.unexpectedNode found a.parent)

end Lowering
end ScriptTree
