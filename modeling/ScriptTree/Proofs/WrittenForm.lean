import ScriptTree.Node.Walk

/-!
How nodes are written. The parts of a node are the nodes inside it and the positions it has kept of
other tokens, in the order of the source, and the gaps in which a token may stand of which it keeps
nothing: the comma after the last item of an array or an object, and the braces around an expression
in XML.
-/
namespace ScriptTree

/-- A part of a node. -/
inductive Part where
  | node (n : Node)
  | sign (pos : Nat)
  /-- A token of this kind may stand from `start` on and before `stop`. -/
  | gap (kind : Kind) (start stop : Nat)

namespace Part

/-- A position that may be missing. -/
def sign? (pos : Option Nat) : List Part := (pos.map sign).toList

/-- A node that may be missing. -/
def node? (n : Option Node) : List Part := (n.map node).toList

/-- Nodes with commas between them. -/
def woven : List Node → List Nat → List Part
  | [], commas => commas.map sign
  | n :: rest, [] => node n :: rest.map node
  | n :: rest, comma :: commas => node n :: sign comma :: woven rest commas

/-- The place of a comma between the last item and the closing mark. -/
def spareComma (items : List Node) (close : Option Nat) : List Part :=
  match items.getLast?, close with
  | some last, some pos => [gap .comma last.range.stop pos]
  | _, _ => []

/-- Whether a part of an XML literal is an expression in braces. -/
def isEmbedded : Node → Bool
  | .xmlExpression .. => true
  | _ => false

/-- The place of the brace before `g`, if it is an expression; the part before it ends at `stop`. -/
def openingBrace (stop : Nat) (g : Node) : List Part :=
  if isEmbedded g then [gap .openBrace stop g.range.start] else []

/-- The place of the brace after `f`, if it is an expression; what comes next begins at `start`. -/
def closingBrace (f : Node) (start : Nat) : List Part :=
  if isEmbedded f then [gap .closeBrace f.range.stop start] else []

/-- The parts of an XML literal, with the places of the braces around expressions. -/
def fragments : List Node → List Part
  | f :: g :: rest =>
    node f :: (closingBrace f g.range.start ++ openingBrace f.range.stop g ++ fragments (g :: rest))
  | rest => rest.map node

end Part

namespace Node
open ScriptTree.Part

/-- The parts of a node. -/
def parts : Node → List Part
  | .script _ statements _ => statements.map node
  | .block _ openBrace statements closeBrace =>
    sign? openBrace ++ statements.map node ++ sign? closeBrace
  | .expressionStatement _ expression semicolon => node expression :: sign? semicolon
  | .constStatement _ word declarations commas semicolon =>
    node (.keyword word) :: woven declarations commas ++ sign? semicolon
  | .ifStatement _ word openParen condition closeParen thenStatement elseKeyword elseStatement =>
    node (.keyword word) :: sign? openParen ++ node condition :: sign? closeParen ++
      node thenStatement :: node? (elseKeyword.map .keyword) ++ node? elseStatement
  | .whileStatement _ word openParen condition closeParen body
  | .withStatement _ word openParen condition closeParen body =>
    node (.keyword word) :: sign? openParen ++ node condition :: sign? closeParen ++ [node body]
  | .doWhileStatement _ word body whileKeyword openParen condition closeParen semicolon =>
    node (.keyword word) :: node body :: node? (whileKeyword.map .keyword) ++ sign? openParen ++
      node condition :: sign? closeParen ++ sign? semicolon
  | .forStatement _ word openParen initial first condition second step closeParen body =>
    node (.keyword word) :: sign? openParen ++ node initial :: sign? first ++
      node condition :: sign? second ++ node step :: sign? closeParen ++ [node body]
  | .forInStatement _ word eachKeyword openParen item inKeyword iterator closeParen body =>
    node (.keyword word) :: node? (eachKeyword.map .keyword) ++ sign? openParen ++
      node item :: node (.keyword inKeyword) :: node iterator :: sign? closeParen ++ [node body]
  | .switchStatement _ word openParen condition closeParen openBrace clauses closeBrace =>
    node (.keyword word) :: sign? openParen ++ node condition :: sign? closeParen ++
      sign? openBrace ++ clauses.map node ++ sign? closeBrace
  | .caseClause _ word condition colon statements =>
    node (.keyword word) :: node condition :: sign? colon ++ statements.map node
  | .defaultClause _ word colon statements =>
    node (.keyword word) :: sign? colon ++ statements.map node
  | .tryStatement _ word body catches finallyPart =>
    node (.keyword word) :: node body :: catches.map node ++ node? finallyPart
  | .catchClause _ word openParen exception filter closeParen body =>
    node (.keyword word) :: sign? openParen ++ node exception :: node? filter ++
      sign? closeParen ++ [node body]
  | .exceptionFilter _ word part | .finallyClause _ word part
  | .keywordOperation _ word part | .new _ word part => [node (.keyword word), node part]
  | .throwStatement _ word exception semicolon =>
    node (.keyword word) :: node exception :: sign? semicolon
  | .returnStatement _ word value semicolon =>
    node (.keyword word) :: node? value ++ sign? semicolon
  | .jumpStatement _ word target semicolon =>
    node (.keyword word) :: node? (target.map .label) ++ sign? semicolon
  | .labelledStatement _ name colon statement =>
    node (.label name) :: sign? colon ++ [node statement]
  | .defaultXmlNamespaceStatement _ word xmlKeyword namespaceKeyword assign value semicolon =>
    node (.keyword word) :: node (.keyword xmlKeyword) ::
      node? (namespaceKeyword.map .keyword) ++ sign? assign ++ node value :: sign? semicolon
  | .this _ word => [node (.keyword word)]
  | .binary _ _ position left right => [node left, sign position, node right]
  | .unary _ operator position expression =>
    if isTrailingOperator operator then [node expression, sign position]
    else [sign position, node expression]
  | .call _ expression openParen arguments commas closeParen =>
    node expression :: sign? openParen ++ woven arguments commas ++ sign? closeParen
  | .property _ base mark name | .allChildren _ base mark name | .localName _ base mark name =>
    [node base, sign mark, node name]
  | .arrayItem _ base openBracket index closeBracket =>
    node base :: sign? openBracket ++ node index :: sign? closeBracket
  | .array _ openBracket items commas closeBracket =>
    sign openBracket :: woven items commas ++ spareComma items closeBracket ++ sign? closeBracket
  | .object _ openBrace members commas closeBrace _ =>
    sign openBrace :: woven members commas ++ spareComma members closeBrace ++ sign? closeBrace
  | .propertyInitializer _ name colon value => node name :: sign? colon ++ [node value]
  | .getMethod _ word name openParen closeParen body =>
    node (.keyword word) :: node name :: sign? openParen ++ sign? closeParen ++ [node body]
  | .setMethod _ word name openParen argument closeParen body =>
    node (.keyword word) :: node name :: sign? openParen ++ node argument :: sign? closeParen ++
      [node body]
  | .conditional _ condition question trueValue colon falseValue =>
    node condition :: sign question :: node trueValue :: sign? colon ++ [node falseValue]
  | .comma _ items commas => woven items commas
  | .parenthesized _ openParen expression closeParen =>
    sign openParen :: node expression :: sign? closeParen
  | .function _ word name openParen arguments commas closeParen body =>
    node (.keyword word) :: node? name ++ sign? openParen ++ woven arguments commas ++
      sign? closeParen ++ [node body]
  | .variableDeclaration _ word declarations commas =>
    node (.keyword word) :: woven declarations commas
  | .variableDeclarator _ name assign initializer =>
    node name :: sign? assign ++ node? initializer
  | .xmlLiteral _ parts => fragments parts
  | .xmlExpression _ expression => [node expression]
  | .keyword _ | .label _ | .comment _ | .emptyStatement _ | .emptyExpression _ => []
  | .identifier .. | .xmlAttribute .. | .asterisk _ | .literal .. | .null _ | .xmlText .. => []

/-- Whether a node stands for one token, the text of which is its range. -/
def isWord : Node → Bool
  | .keyword _ | .label _ | .emptyStatement _ | .identifier .. | .xmlAttribute .. => true
  | .asterisk _ | .literal .. | .null _ | .xmlText .. => true
  | _ => false

def isScript : Node → Bool
  | .script .. => true
  | _ => false

/-- Whether a node is a name that is missing. -/
def isNameless : Node → Bool
  | .identifier _ name => name.isEmpty
  | _ => false

/-- Whether the keywords and marks that the construct of a node takes are all there. A semicolon at
the end of a statement may be left out, so that it is not among them. -/
def isComplete : Node → Bool
  | .block _ openBrace _ closeBrace => openBrace.isSome && closeBrace.isSome
  | .ifStatement _ _ openParen _ closeParen _ elseKeyword elseStatement =>
    openParen.isSome && closeParen.isSome && elseKeyword.isSome == elseStatement.isSome
  | .whileStatement _ _ openParen _ closeParen _ | .withStatement _ _ openParen _ closeParen _ =>
    openParen.isSome && closeParen.isSome
  | .doWhileStatement _ _ _ whileKeyword openParen _ closeParen _ =>
    whileKeyword.isSome && openParen.isSome && closeParen.isSome
  | .forStatement _ _ openParen _ initialSemicolon _ conditionSemicolon _ closeParen _ =>
    openParen.isSome && initialSemicolon.isSome && conditionSemicolon.isSome && closeParen.isSome
  | .forInStatement _ _ _ openParen _ _ _ closeParen _ => openParen.isSome && closeParen.isSome
  | .switchStatement _ _ openParen _ closeParen openBrace _ closeBrace =>
    openParen.isSome && closeParen.isSome && openBrace.isSome && closeBrace.isSome
  | .caseClause _ _ _ colon _ | .defaultClause _ _ colon _ | .labelledStatement _ _ colon _ =>
    colon.isSome
  | .catchClause _ _ openParen _ _ closeParen _ => openParen.isSome && closeParen.isSome
  | .defaultXmlNamespaceStatement _ _ _ namespaceKeyword assign _ _ =>
    namespaceKeyword.isSome && assign.isSome
  | .call _ _ openParen _ _ closeParen => openParen.isSome && closeParen.isSome
  | .arrayItem _ _ openBracket _ closeBracket => openBracket.isSome && closeBracket.isSome
  | .array _ _ _ _ close | .object _ _ _ _ close _ | .parenthesized _ _ _ close => close.isSome
  | .propertyInitializer _ _ colon _ | .conditional _ _ _ _ colon _ => colon.isSome
  | .getMethod _ _ _ openParen closeParen _ | .setMethod _ _ _ openParen _ closeParen _ =>
    openParen.isSome && closeParen.isSome
  | .function _ _ _ openParen _ _ closeParen _ => openParen.isSome && closeParen.isSome
  | .variableDeclarator _ _ assign initializer => assign.isSome == initializer.isSome
  | _ => true

/-- The nodes inside a node that its construct does not let be empty. The clauses of a loop head,
the items of an array and the operand of a `yield` may be left out. -/
def required : Node → List Node
  | .forStatement _ word _ _ _ _ _ _ _ body => [.keyword word, body]
  | .array .. => []
  | .keywordOperation _ word operand =>
    if word.token = .yieldKeyword then [.keyword word] else [.keyword word, operand]
  | n => n.children

end Node

/-- What may be left out among the parts of a node. -/
inductive Leeway where
  | nothing
  /-- Expressions before a mark. -/
  | clauses
  /-- The expression after a keyword. -/
  | operand
  deriving DecidableEq

namespace Node

def leeway : Node → Leeway
  | .forStatement .. | .array .. => .clauses
  | .keywordOperation .. => .operand
  | _ => .nothing

theorem parts_of_isWord {n : Node} (h : n.isWord = true) : n.parts = [] := by
  cases n <;> first | rfl | cases h

theorem isScript_of_isWord {n : Node} (h : n.isWord = true) : n.isScript = false := by
  cases n <;> first | rfl | cases h

theorem children_of_isWord {n : Node} (h : n.isWord = true) : n.children = [] := by
  cases n <;> first | rfl | cases h

theorem preorder_eq (n : Node) : n.preorder = n :: n.children.flatMap preorder := by
  rw [preorder]
  simp [List.flatMap]

theorem mem_preorder_self (n : Node) : n ∈ n.preorder := by
  rw [preorder_eq]
  exact List.mem_cons_self

theorem mem_preorder_of_mem_children {m c n : Node} (hc : c ∈ n.children) (hm : m ∈ c.preorder) :
    m ∈ n.preorder := by
  rw [preorder_eq]
  exact List.mem_cons_of_mem n (List.mem_flatMap.mpr ⟨c, hc, hm⟩)

end Node

namespace Part

/-- The nodes among some parts. -/
def nodes : List Part → List Node
  | [] => []
  | node n :: rest => n :: nodes rest
  | _ :: rest => nodes rest

@[simp] theorem nodes_sign (pos : Nat) (rest : List Part) : nodes (sign pos :: rest) = nodes rest :=
  rfl

@[simp] theorem nodes_gap (kind : Kind) (start stop : Nat) (rest : List Part) :
    nodes (gap kind start stop :: rest) = nodes rest :=
  rfl

@[simp] theorem nodes_append (a b : List Part) : nodes (a ++ b) = nodes a ++ nodes b := by
  induction a with
  | nil => rfl
  | cons part rest ih => cases part <;> simp [nodes, ih]

@[simp] theorem nodes_map_node (ns : List Node) : nodes (ns.map node) = ns := by
  induction ns with
  | nil => rfl
  | cons n rest ih => simp [nodes, ih]

@[simp] theorem nodes_map_sign (signs : List Nat) : nodes (signs.map sign) = [] := by
  induction signs with
  | nil => rfl
  | cons pos rest ih => simpa [nodes] using ih

@[simp] theorem nodes_sign? (pos : Option Nat) : nodes (sign? pos) = [] := by
  cases pos <;> rfl

@[simp] theorem nodes_node? (n : Option Node) : nodes (node? n) = n.toList := by
  cases n <;> rfl

@[simp] theorem nodes_woven (ns : List Node) (commas : List Nat) :
    nodes (woven ns commas) = ns := by
  induction ns generalizing commas with
  | nil => exact nodes_map_sign commas
  | cons n rest ih => cases commas <;> simp [woven, nodes, ih]

@[simp] theorem nodes_spareComma (items : List Node) (close : Option Nat) :
    nodes (spareComma items close) = [] := by
  unfold spareComma
  split <;> rfl

@[simp] theorem nodes_fragments (ns : List Node) : nodes (fragments ns) = ns := by
  induction ns with
  | nil => rfl
  | cons f rest ih =>
    cases rest with
    | nil => rfl
    | cons g rest =>
      have hbraces : nodes (closingBrace f g.range.start ++ openingBrace f.range.stop g) = [] := by
        unfold closingBrace openingBrace
        split <;> split <;> rfl
      rw [fragments, nodes, nodes_append, hbraces, ih, List.nil_append]

end Part

/-- The nodes among the parts of a node are those inside it. Only a script has others, comments. -/
theorem Node.nodes_parts {n : Node} (h : n.isScript = false) : Part.nodes n.parts = n.children := by
  cases n with
  | script => cases h
  | unary _ operator =>
    rw [parts]
    split <;> rfl
  | _ => simp [parts, children, Part.nodes]

end ScriptTree
