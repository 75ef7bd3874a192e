import ScriptTree.Production.Statement
import ScriptTree.Proofs.Significant

/-!
The grammar as a relation. `Derives input r p q e ts` says that rule `r`, begun before the
significant token of rank `p`, may end before that of rank `q` with the concrete trees `ts` and `e`
reports on the way. Derivations with no report are those of well-formed text; the others show what
going on after an error may build.
-/
namespace ScriptTree

namespace Input

/-- The inner node that begins at place `start` and ends with the last token before rank `q`. -/
def nodeAt (input : Input) (q : Nat) (kind : Kind) (start : Nat) (children : List Concrete) :
    Concrete :=
  .inner kind start ((input.lastBefore q).filter (start ≤ ·)) children

/-- The leaf of the token of rank `p`. -/
def leafAt (input : Input) (p : Nat) (kind : Kind) : Concrete :=
  .leaf kind (input.indexAt p) (input.textAt p)

/-- Where a node for something missing before rank `p` stands. -/
def missingStart (input : Input) (p : Nat) : Nat :=
  match input.lastBefore p with
  | some last => min (last + 1) (input.indexAt p)
  | none => input.indexAt p

/-- The node for something missing before rank `p`. -/
def missingAt (input : Input) (p : Nat) (kind : Kind) : Concrete :=
  .absent kind (input.missingStart p)

end Input

/-- A token that has to be there: it is read, or read after one too many, or reported missing. -/
inductive Expects (input : Input) (k : Kind) : Nat → Nat → Nat → Prop where
  | here : input.Sees p k → Expects input k p (p + 1) 0
  | afterOne : input.Sees (p + 1) k → Expects input k p (p + 2) 1
  | missing : Expects input k p p 1

/-- The end of a statement: a semicolon, or a place where it may be left out. -/
inductive EndsStatement (input : Input) : Nat → Nat → Nat → Prop where
  | semicolon : input.Sees p .semicolon → EndsStatement input p (p + 1) 0
  | omitted : ¬input.Sees p .semicolon →
      (input.significant.size ≤ p ∨ input.Sees p .closeBrace ∨ input.brokenAt p = true) →
      EndsStatement input p p 0
  | missing : ¬input.Sees p .semicolon → EndsStatement input p p 1

/-- A semicolon that belongs to a statement if it is there. -/
inductive MaySemicolon (input : Input) : Nat → Nat → Prop where
  | present : input.Sees p .semicolon → MaySemicolon input p (p + 1)
  | absent : MaySemicolon input p p

/-- The rules of the grammar. The parts of a rule that is a list are the trees of its items. -/
inductive Rule where
  -- Expressions, from the loosest to the tightest.
  | expression | assignment | conditional | binary (floor : Precedence) | unary | trailing | member
  | primary | operand
  -- Names.
  | identifier | selector | propertyName
  -- Parts of expressions.
  | property | items | members | xmlParts
  -- Statements and their parts.
  | statement | statements | block | function (isStatement : Bool) | variables | declarator
  | condition | alternative | initial | clause | forHead (iterates : Bool) | clauses | switchClause
  | catches | catchClause | exceptionFilter | finallyClause | required (k : Kind)
  -- Lists.
  | separated (item : Rule) | listed (item : Rule) | optional (part : Rule)

namespace Rule

/-- Tokens that are operands by themselves. -/
def isAtom : Kind → Bool
  | .thisKeyword | .nullKeyword | .trueKeyword | .falseKeyword | .stringLiteral
  | .regularExpressionLiteral | .xmlAttribute => true
  | k => k.isNumericLiteral

theorem isAtom_of_isNumericLiteral {k : Kind} (h : k.isNumericLiteral = true) :
    isAtom k = true := by
  unfold isAtom
  split <;> first | rfl | exact h

theorem isAtom_of_isIdentifier {k : Kind} (h : k.isIdentifier = true) :
    isAtom k = false := by
  revert h
  cases k <;> decide

/-- The tag of the leaf that a rule makes of a single token. -/
def leafTag? : Rule → Kind → Option Kind
  | .identifier, k => if k.isIdentifier then some .identifier else none
  | .selector, k =>
    if k == .xmlAttribute || k == .asterisk then some k
    else if k == .identifier || k.isKeyword then some .identifier else none
  | .propertyName, k =>
    if k == .stringLiteral || k.isNumericLiteral then some k
    else if k == .identifier || k.isKeyword then some .identifier else none
  | .operand, k =>
    if isAtom k then some k else if k.isIdentifier then some .identifier else none
  | _, _ => none

/-- The tag of the node that stands for what a rule misses. -/
def missingTag? : Rule → Option Kind
  | .identifier | .selector | .propertyName => some .identifier
  | .operand => some .expr
  | _ => none

/-- The tag of a member access, by its mark. -/
def accessTag? : Kind → Option Kind
  | .dot => some .byField
  | .dotDot => some .dotDot
  | .colonColon => some .colonColon
  | _ => none

end Rule

/-- The tags of leaves: names, and tokens that are operands by themselves. -/
theorem leafTag?_cases {r : Rule} {k tag : Kind} (h : r.leafTag? k = some tag) :
    tag = .identifier ∨ tag = k ∧ (k = .asterisk ∨ Rule.isAtom k = true) := by
  have hstring : Rule.isAtom .stringLiteral = true := rfl
  have hattribute : Rule.isAtom .xmlAttribute = true := rfl
  cases r with
  | identifier | selector | propertyName | operand =>
    simp only [Rule.leafTag?] at h
    split at h
    all_goals grind [Rule.isAtom_of_isNumericLiteral]
  | _ => cases h

/-- An operator at the root of a tree binds at least as tightly as those of a given precedence. -/
def Concrete.BindsAtLeast (t : Concrete) (precedence : Precedence) : Prop :=
  ∀ p, t.kind.binaryPrecedence? = some p → precedence.level ≤ p.level

/-- An item of an array around its value. -/
def arrayItem (value : Concrete) : Concrete := .inner .item value.start value.lastToken? [value]

open Rule Production in
/-- The rules, one constructor for each of their forms. -/
inductive Derives (input : Input) : Rule → Nat → Nat → Nat → List Concrete → Prop where
  -- Lists.
  | one : Derives input r p q e [t] → Derives input (.separated r) p q e [t]
  | more : Derives input r p m e [t] → input.Sees m .comma →
      Derives input (.separated r) (m + 1) q e' ts →
      Derives input (.separated r) p q (e + e') (t :: ts)
  | noItems : Expects input .openParen p m e → Expects input .closeParen m q e' →
      Derives input (.listed r) p q (e + e') [input.nodeAt q .arguments (input.indexAt p) []]
  | someItems : Expects input .openParen p m e → Derives input (.separated r) m m' e' ts →
      Expects input .closeParen m' q e'' →
      Derives input (.listed r) p q (e + e' + e'')
        [input.nodeAt q .arguments (input.indexAt p) ts]
  | nothing : Derives input (.optional r) p p 0 []
  | something : Derives input r p q e [t] → Derives input (.optional r) p q e [t]
  -- Single tokens.
  | leaf : input.Sees p k → r.leafTag? k = some tag →
      Derives input r p (p + 1) 0 [input.leafAt p tag]
  | missing : r.missingTag? = some tag → Derives input r p p 1 [input.missingAt p tag]
  | present : input.Sees p k → Derives input (.required k) p (p + 1) 0 [input.leafAt p k]
  | lacking : Derives input (.required k) p p 1 []
  -- Operands.
  | paren : input.Sees p .openParen → Derives input .expression (p + 1) m e [t] →
      Expects input .closeParen m q e' →
      Derives input .operand p q (e + e') [input.nodeAt q .paren (input.indexAt p) [t]]
  | array : input.Sees p .openBracket → Derives input .items (p + 1) m e ts →
      Expects input .closeBracket m q e' →
      Derives input .operand p q (e + e') [input.nodeAt q .arrayLiteral (input.indexAt p) ts]
  | noMoreItems : Derives input .items p p 0 []
  | hole : input.Sees p .comma → Derives input .items (p + 1) q e ts →
      Derives input .items p q e (.absent .item (input.indexAt p) :: ts)
  | lastItem : Derives input .assignment p q e [t] → Derives input .items p q e [arrayItem t]
  | item : Derives input .assignment p m e [t] → input.Sees m .comma →
      Derives input .items (m + 1) q e' ts → Derives input .items p q (e + e') (arrayItem t :: ts)
  | object : input.Sees p .openBrace → Derives input .members (p + 1) m e ts →
      Expects input .closeBrace m q e' →
      Derives input .operand p q (e + e') [input.nodeAt q .objectLiteral (input.indexAt p) ts]
  | noMoreMembers : Derives input .members p p 0 []
  | lastMember : Derives input .property p q e [t] → Derives input .members p q e [t]
  | nextMember : Derives input .property p m e [t] → input.Sees m .comma →
      Derives input .members (m + 1) q e' ts → Derives input .members p q (e + e') (t :: ts)
  | propertyInit : Derives input .propertyName p m e [n] → Expects input .colon m m' e' →
      Derives input .assignment m' q e'' [t] →
      Derives input .property p q (e + e' + e'')
        [input.nodeAt q .propertyInit (input.indexAt p) [n, t]]
  | getter : input.Sees p .getKeyword → Derives input .propertyName (p + 1) m₁ e₁ [n] →
      Expects input .openParen m₁ m₂ e₂ → Expects input .closeParen m₂ m₃ e₃ →
      Derives input .block m₃ q e₄ [t] →
      Derives input .property p q (e₁ + e₂ + e₃ + e₄)
        [input.nodeAt q .getKeyword (input.indexAt p) [n, t]]
  | setter : input.Sees p .setKeyword → Derives input .propertyName (p + 1) m₁ e₁ [n] →
      Expects input .openParen m₁ m₂ e₂ → Derives input .identifier m₂ m₃ e₃ [x] →
      Expects input .closeParen m₃ m₄ e₄ → Derives input .block m₄ q e₅ [t] →
      Derives input .property p q (e₁ + e₂ + e₃ + e₄ + e₅)
        [input.nodeAt q .setKeyword (input.indexAt p) [n, x, t]]
  | xml : (input.Sees p .xmlFragment ∨ input.Sees p .xmlFragmentEnd) →
      Derives input .xmlParts p q e ts →
      Derives input .operand p q e [input.nodeAt q .xmlLiteral (input.indexAt p) ts]
  | xmlText : input.Sees p .xmlFragment → Derives input .xmlParts (p + 1) q e ts →
      Derives input .xmlParts p q e (input.leafAt p .xmlFragment :: ts)
  | xmlLast : input.Sees p .xmlFragmentEnd →
      Derives input .xmlParts p (p + 1) 0 [input.leafAt p .xmlFragmentEnd]
  | xmlEmbedded : input.Sees p .openBrace → Derives input .expression (p + 1) m e [t] →
      Expects input .closeBrace m m' e' → Derives input .xmlParts m' q e'' ts →
      Derives input .xmlParts p q (e + e' + e'') (t :: ts)
  | xmlBroken : ¬input.Sees p .xmlFragment → ¬input.Sees p .xmlFragmentEnd →
      Derives input .xmlParts p p 1 []
  | functionOperand : Derives input (.function false) p q e [t] → Derives input .operand p q e [t]
  | invalid : input.Sees p .unknown → Derives input .operand (p + 1) q e [t] →
      Derives input .primary p q (e + 1) [t]
  | primaryOf : Derives input .operand p q e [t] → Derives input .primary p q e [t]
  -- Member accesses, calls and operators.
  | memberOf : Derives input .primary p q e [t] → Derives input .member p q e [t]
  | new : input.Sees p .newKeyword → Derives input .member (p + 1) q e [t] →
      Derives input .member p q e [input.nodeAt q .newKeyword (input.indexAt p) [t]]
  | newCall : input.Sees p .newKeyword → Derives input .member (p + 1) m e [t] →
      input.Sees m .openParen → Derives input (.listed .assignment) m q e' [a] →
      Derives input .member p q (e + e')
        [input.nodeAt q .newKeyword (input.indexAt p) [input.nodeAt q .call t.start [t, a]]]
  | access : Derives input .member p m e [t] → input.Sees m k → accessTag? k = some tag →
      Derives input .selector (m + 1) q e' [n] →
      Derives input .member p q (e + e') [input.nodeAt q tag t.start [t, n]]
  | index : Derives input .member p m e [t] → input.Sees m .openBracket →
      Derives input .expression (m + 1) m' e' [u] → Expects input .closeBracket m' q e'' →
      Derives input .member p q (e + e' + e'') [input.nodeAt q .byIndex t.start [t, u]]
  | call : Derives input .member p m e [t] → input.Sees m .openParen →
      Derives input (.listed .assignment) m q e' [a] →
      Derives input .member p q (e + e') [input.nodeAt q .call t.start [t, a]]
  | trailingOf : Derives input .member p q e [t] → Derives input .trailing p q e [t]
  | trailed : Derives input .member p m e [t] → input.Sees m k → trailingOperator? k = some tag →
      input.brokenAt m = false →
      Derives input .trailing p (m + 1) e [input.nodeAt (m + 1) tag t.start [t]]
  | unaryOf : Derives input .trailing p q e [t] → Derives input .unary p q e [t]
  | leading : input.Sees p k → leadingOperator? k = some tag →
      Derives input .unary (p + 1) q e [t] →
      Derives input .unary p q e [input.nodeAt q tag (input.indexAt p) [t]]
  | binaryOf : Derives input .unary p q e [t] → Derives input (.binary floor) p q e [t]
  | operate : Derives input (.binary floor) p m e [t] → input.Sees m k →
      k.binaryPrecedence? = some precedence → floor.level < precedence.level →
      t.BindsAtLeast precedence → Derives input (.binary precedence) (m + 1) q e' [u] →
      Derives input (.binary floor) p q (e + e') [input.nodeAt q k t.start [t, u]]
  | conditionalOf : Derives input (.binary .lowest) p q e [t] →
      Derives input .conditional p q e [t]
  | choose : Derives input (.binary .lowest) p m₁ e₁ [t] → input.Sees m₁ .question →
      Derives input .assignment (m₁ + 1) m₂ e₂ [u] → Expects input .colon m₂ m₃ e₃ →
      Derives input .assignment m₃ q e₄ [v] →
      Derives input .conditional p q (e₁ + e₂ + e₃ + e₄)
        [input.nodeAt q .question t.start [t, u, v]]
  | assignmentOf : Derives input .conditional p q e [t] → Derives input .assignment p q e [t]
  | assign : Derives input .conditional p m e [t] → input.Sees m k →
      k.isAssignmentOperator = true → Derives input .assignment (m + 1) q e' [u] →
      Derives input .assignment p q (e + e') [input.nodeAt q k t.start [t, u]]
  | yield : input.Sees p .yieldKeyword → Derives input (.optional .assignment) (p + 1) q e ts →
      (ts ≠ [] → input.brokenAt (p + 1) = false) →
      Derives input .assignment p q e [input.nodeAt q .yieldKeyword (input.indexAt p) ts]
  | expressionOf : Derives input .assignment p q e [t] → Derives input .expression p q e [t]
  | commas : Derives input .assignment p m e [t] → input.Sees m .comma →
      Derives input (.separated .assignment) (m + 1) q e' ts →
      Derives input .expression p q (e + e') [input.nodeAt q .commaExpr t.start (t :: ts)]
  -- Statement lists, blocks and functions.
  | noMoreStatements : Derives input .statements p p 0 []
  | nextStatement : Derives input .statement p m e [t] → p < m →
      Derives input .statements m q e' ts → Derives input .statements p q (e + e') (t :: ts)
  | skipped : Derives input .statement p p e [t] → p ≤ m → m ≤ input.significant.size →
      Derives input .statements m q e' ts → Derives input .statements p q (e + e') ts
  | block : Expects input .openBrace p m e → Derives input .statements m m' e' ts →
      Expects input .closeBrace m' q e'' →
      Derives input .block p q (e + e' + e'') [input.nodeAt q .block (input.indexAt p) ts]
  | named : input.Sees p .functionKeyword → input.Sees (p + 1) k → k.isIdentifier = true →
      Derives input (.listed .identifier) (p + 2) m e [a] → Derives input .block m q e' [t] →
      Derives input (.function isStatement) p q (e + e')
        [input.nodeAt q .functionKeyword (input.indexAt p)
          [input.leafAt (p + 1) .identifier, a, t]]
  | unnamed : input.Sees p .functionKeyword →
      Derives input (.listed .identifier) (p + 1) m e [a] → Derives input .block m q e' [t] →
      Derives input (.function isStatement) p q ((if isStatement then 1 else 0) + e + e')
        [input.nodeAt q .functionKeyword (input.indexAt p) [a, t]]
  -- Declarations.
  | declaration : input.Sees p .varKeyword → Derives input (.separated .declarator) (p + 1) q e ts →
      Derives input .variables p q e [input.nodeAt q .varKeyword (input.indexAt p) ts]
  | declared : Derives input .identifier p q e [t] → Derives input .declarator p q e [t]
  | initialized : Derives input .identifier p m e [t] → input.Sees m .equals →
      Derives input .assignment (m + 1) q e' [u] →
      Derives input .declarator p q (e + e') [input.nodeAt q .equals t.start [t, u]]
  -- Parts of statements.
  | condition : Expects input .openParen p m e → Derives input .expression m m' e' [t] →
      Expects input .closeParen m' q e'' → Derives input .condition p q (e + e' + e'') [t]
  | noElse : Derives input .alternative p p 0 []
  | orElse : input.Sees p .elseKeyword → Derives input .statement (p + 1) q e [t] →
      Derives input .alternative p q e [t]
  | initialOf : Derives input .expression p q e [t] → Derives input .initial p q e [t]
  | initialVariables : Derives input .variables p q e [t] → Derives input .initial p q e [t]
  | noClause : Derives input .clause p p 0 [.absent .expr (input.indexAt p)]
  | clauseOf : Derives input .initial p q e [t] → Derives input .clause p q e [clause t]
  | steps : Derives input .clause p m₁ e₁ [t] → Expects input .semicolon m₁ m₂ e₂ →
      Derives input .clause m₂ m₃ e₃ [u] → Expects input .semicolon m₃ m₄ e₄ →
      Derives input .clause m₄ q e₅ [v] →
      Derives input (.forHead false) p q (e₁ + e₂ + e₃ + e₄ + e₅)
        [input.nodeAt q .forStep (input.indexAt p) [t, u, v]]
  | iterate : Derives input .initial p m e [t] → input.Sees m .inKeyword →
      Derives input .expression (m + 1) q e' [u] →
      Derives input (.forHead true) p q (e + e')
        [input.nodeAt q .forIter (input.indexAt p) [t, u]]
  | caseClause : input.Sees p .caseKeyword → Derives input .expression (p + 1) m₁ e₁ [t] →
      Expects input .colon m₁ m₂ e₂ → Derives input .statements m₂ q e₃ ts →
      Derives input .switchClause p q (e₁ + e₂ + e₃)
        [input.nodeAt q .caseKeyword (input.indexAt p) (t :: ts)]
  | defaultClause : input.Sees p .defaultKeyword → Expects input .colon (p + 1) m e →
      Derives input .statements m q e' ts →
      Derives input .switchClause p q (e + e')
        [input.nodeAt q .defaultKeyword (input.indexAt p) ts]
  | noMoreClauses : Derives input .clauses p p 0 []
  | nextClause : Derives input .switchClause p m e [t] → Derives input .clauses m q e' ts →
      Derives input .clauses p q (e + e') (t :: ts)
  | strayTokens : p ≤ m → m ≤ input.significant.size → Derives input .clauses m q e ts →
      Derives input .clauses p q (e + 1) ts
  | filter : input.Sees p .ifKeyword → Derives input .expression (p + 1) q e [t] →
      Derives input .exceptionFilter p q e [input.nodeAt q .ifKeyword (input.indexAt p) [t]]
  | catchClause : input.Sees p .catchKeyword → Expects input .openParen (p + 1) m₁ e₁ →
      Derives input .identifier m₁ m₂ e₂ [x] →
      Derives input (.optional .exceptionFilter) m₂ m₃ e₃ fs →
      Expects input .closeParen m₃ m₄ e₄ → Derives input .block m₄ q e₅ [t] →
      Derives input .catchClause p q (e₁ + e₂ + e₃ + e₄ + e₅)
        [input.nodeAt q .catchKeyword (input.indexAt p) (x :: (fs ++ [t]))]
  | noMoreCatches : Derives input .catches p p 0 []
  | nextCatch : Derives input .catchClause p m e [t] → Derives input .catches m q e' ts →
      Derives input .catches p q (e + e') (t :: ts)
  | finalClause : input.Sees p .finallyKeyword → Derives input .block (p + 1) q e [t] →
      Derives input .finallyClause p q e [input.nodeAt q .finallyKeyword (input.indexAt p) [t]]
  -- Statements.
  | blockStatement : Derives input .block p q e [t] → Derives input .statement p q e [t]
  | emptyStatement : input.Sees p .semicolon →
      Derives input .statement p (p + 1) 0
        [.inner .emptyStatement (input.indexAt p) (some (input.indexAt p)) []]
  | functionStatement : Derives input (.function true) p q e [t] →
      Derives input .statement p q e [t]
  | variableStatement : Derives input .variables p m e [t] → EndsStatement input m q e' →
      Derives input .statement p q (e + e') [t]
  | constStatement : input.Sees p .constKeyword →
      Derives input (.separated .declarator) (p + 1) m e ts → EndsStatement input m q e' →
      Derives input .statement p q (e + e')
        [input.nodeAt q .constKeyword (input.indexAt p) ts]
  | ifStatement : input.Sees p .ifKeyword → Derives input .condition (p + 1) m₁ e₁ [t] →
      Derives input .statement m₁ m₂ e₂ [u] → Derives input .alternative m₂ q e₃ ts →
      Derives input .statement p q (e₁ + e₂ + e₃)
        [input.nodeAt q .ifKeyword (input.indexAt p) (t :: u :: ts)]
  | doStatement : input.Sees p .doKeyword → Derives input .statement (p + 1) m₁ e₁ [t] →
      Expects input .whileKeyword m₁ m₂ e₂ → Derives input .condition m₂ m₃ e₃ [u] →
      MaySemicolon input m₃ q →
      Derives input .statement p q (e₁ + e₂ + e₃)
        [input.nodeAt q .doKeyword (input.indexAt p) [t, u]]
  | whileStatement : input.Sees p .whileKeyword → Derives input .condition (p + 1) m e [t] →
      Derives input .statement m q e' [u] →
      Derives input .statement p q (e + e')
        [input.nodeAt q .whileKeyword (input.indexAt p) [t, u]]
  | withStatement : input.Sees p .withKeyword → Derives input .condition (p + 1) m e [t] →
      Derives input .statement m q e' [u] →
      Derives input .statement p q (e + e')
        [input.nodeAt q .withKeyword (input.indexAt p) [t, u]]
  | forStatement : input.Sees p .forKeyword → (each = true → input.Sees (p + 1) .eachKeyword) →
      Expects input .openParen (if each then p + 2 else p + 1) m₁ e₁ →
      Derives input (.forHead iterates) m₁ m₂ e₂ [t] → Expects input .closeParen m₂ m₃ e₃ →
      Derives input .statement m₃ q e₄ [u] →
      Derives input .statement p q (e₁ + e₂ + e₃ + e₄ + if each && !iterates then 1 else 0)
        [input.nodeAt q (if each && iterates then .forEach else .forKeyword) (input.indexAt p)
          [t, u]]
  | jumpStatement : input.Sees p k → (k = .breakKeyword ∨ k = .continueKeyword) →
      Derives input (.optional .identifier) (p + 1) m e ts →
      (ts ≠ [] → input.brokenAt (p + 1) = false) → EndsStatement input m q e' →
      Derives input .statement p q (e + e') [input.nodeAt q k (input.indexAt p) ts]
  | returnStatement : input.Sees p .returnKeyword →
      Derives input (.optional .expression) (p + 1) m e ts →
      (ts ≠ [] → input.brokenAt (p + 1) = false) → EndsStatement input m q e' →
      Derives input .statement p q (e + e')
        [input.nodeAt q .returnKeyword (input.indexAt p) ts]
  | throwStatement : input.Sees p .throwKeyword → Derives input .expression (p + 1) m e [t] →
      EndsStatement input m q e' →
      Derives input .statement p q (e + e')
        [input.nodeAt q .throwKeyword (input.indexAt p) [t]]
  | switchStatement : input.Sees p .switchKeyword → Derives input .condition (p + 1) m₁ e₁ [t] →
      Expects input .openBrace m₁ m₂ e₂ → Derives input .clauses m₂ m₃ e₃ ts →
      Expects input .closeBrace m₃ q e₄ →
      Derives input .statement p q (e₁ + e₂ + e₃ + e₄)
        [input.nodeAt q .switchKeyword (input.indexAt p) (t :: ts)]
  | tryStatement : input.Sees p .tryKeyword → Derives input .block (p + 1) m₁ e₁ [t] →
      Derives input .catches m₁ m₂ e₂ ts →
      Derives input (.optional .finallyClause) m₂ q e₃ us →
      Derives input .statement p q (e₁ + e₂ + e₃ + if (ts ++ us).isEmpty then 1 else 0)
        [input.nodeAt q .tryKeyword (input.indexAt p) (t :: (ts ++ us))]
  | namespaceStatement : input.Sees p .defaultKeyword → input.Sees (p + 1) .xmlKeyword →
      Derives input (.required .namespaceKeyword) (p + 2) m₁ e₁ ns →
      Derives input (.required .equals) m₁ m₂ e₂ es → Derives input .expression m₂ m₃ e₃ [t] →
      EndsStatement input m₃ q e₄ →
      Derives input .statement p q (e₁ + e₂ + e₃ + e₄)
        [input.nodeAt q .defaultXmlNamespace (input.indexAt p)
          (input.leafAt p .defaultKeyword :: input.leafAt (p + 1) .xmlKeyword ::
            (ns ++ es ++ [t]))]
  | labelledStatement : input.Sees p k → k.isIdentifier = true → input.Sees (p + 1) .colon →
      Derives input .statement (p + 2) q e [t] →
      Derives input .statement p q e
        [input.nodeAt q .labelled (input.indexAt p) [input.leafAt p .identifier, t]]
  | expressionStatement : ¬input.Sees p .functionKeyword →
      Derives input .expression p m e [t] → t.isEmpty = false → EndsStatement input m q e' →
      Derives input .statement p q (e + e') [t]
  | nullStatement : Derives input .expression p q e [t] → t.isEmpty = true →
      Derives input .statement p q e [t]

theorem Derives.forHead_kind {input : Input} {p q e : Nat} {t : Concrete} {iterates : Bool}
    (h : Derives input (.forHead iterates) p q e [t]) : (t.kind == .forIter) = iterates := by
  cases h with
  | leaf _ htag => cases htag
  | missing htag => cases htag
  | steps => rfl
  | iterate => rfl

/-! Rules read forward, and not past the end of the input. -/

/-- The step from rank `p` to rank `q` goes forward and stays in the input. -/
def Input.Forward (input : Input) (p q : Nat) : Prop :=
  p ≤ q ∧ (p ≤ input.significant.size → q ≤ input.significant.size)

variable {input : Input} {p q e : Nat}

@[grind →] theorem Expects.forward {k : Kind} (h : Expects input k p q e) :
    input.Forward p q := by
  cases h with
  | here hsees => exact ⟨Nat.le_succ _, fun _ => hsees.lt_size⟩
  | afterOne hsees => exact ⟨by omega, fun _ => hsees.lt_size⟩
  | missing => exact ⟨Nat.le_refl _, id⟩

@[grind →] theorem EndsStatement.forward (h : EndsStatement input p q e) :
    input.Forward p q := by
  cases h with
  | semicolon hsees => exact ⟨Nat.le_succ _, fun _ => hsees.lt_size⟩
  | omitted _ _ => exact ⟨Nat.le_refl _, id⟩
  | missing _ => exact ⟨Nat.le_refl _, id⟩

@[grind →] theorem MaySemicolon.forward (h : MaySemicolon input p q) : input.Forward p q := by
  cases h with
  | present hsees => exact ⟨Nat.le_succ _, fun _ => hsees.lt_size⟩
  | absent => exact ⟨Nat.le_refl _, id⟩

theorem Derives.forward {r : Rule} {ts : List Concrete} (h : Derives input r p q e ts) :
    input.Forward p q := by
  induction h <;> grind [Input.Forward]

end ScriptTree
