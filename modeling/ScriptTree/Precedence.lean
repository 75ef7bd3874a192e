import ScriptTree.Kind

/-! Precedence of the binary operators, from the loosest to the tightest. -/
namespace ScriptTree

inductive Precedence where
  | lowest | logicalOr | logicalAnd | bitwiseOr | bitwiseXor | bitwiseAnd | equality | relational
  | shift | additive | multiplicative
  deriving DecidableEq, Repr

namespace Precedence

/-- Operators of a higher level bind more tightly. -/
def level (p : Precedence) : Nat := p.ctorIdx

theorem level_le_ten (p : Precedence) : p.level ≤ 10 := by cases p <;> decide

end Precedence

/-- The precedence of a binary operator. Assignments are not among them. -/
def Kind.binaryPrecedence? : Kind → Option Precedence
  | .barBar => some .logicalOr
  | .ampersandAmpersand => some .logicalAnd
  | .bar => some .bitwiseOr
  | .caret => some .bitwiseXor
  | .ampersand => some .bitwiseAnd
  | .equalsEquals | .exclamationEquals | .equalsEqualsEquals | .exclamationEqualsEquals =>
    some .equality
  | .lessThan | .greaterThan | .lessThanEquals | .greaterThanEquals | .instanceOfKeyword
  | .inKeyword => some .relational
  | .lessThanLessThan | .greaterThanGreaterThan | .greaterThanGreaterThanGreaterThan => some .shift
  | .plus | .minus => some .additive
  | .asterisk | .slash | .percent => some .multiplicative
  | _ => none

/-- Binary operators, assignments included. -/
def Kind.isBinaryOperator (k : Kind) : Bool :=
  k.isAssignmentOperator || k.binaryPrecedence?.isSome

end ScriptTree
