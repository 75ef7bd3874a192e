import ScriptTree.Lowering.Statement
import ScriptTree.Script

/-!
Whole scripts. Here the rules for the parts are put into each other: `Builder.within n` goes at most
`n` steps down. A step leads from a node to a node below it, or from a statement to the expression
that it consists of, so that twice the height of a tree is enough.
-/
namespace ScriptTree

/-- The builder that goes at most `n` steps down. -/
def Builder.within (cx : Lowering) (limit : Nat) : Nat → Builder
  | 0 =>
    { expression := fun _ _ => .error (.tooDeep limit)
      statement := fun _ _ _ => .error (.tooDeep limit) }
  | n + 1 =>
    { expression := fun t a => cx.expression limit (within cx limit n) t a
      statement := fun t a bound => cx.statement limit (within cx limit n) t a bound }

/-- The statements of a script. -/
def Lowering.statements (cx : Lowering) (limit : Nat) (root : Concrete) : Lowered (List Node) :=
  let b := Builder.within cx limit (2 * root.height)
  root.children.mapM (b.statement · .root cx.tokens.size)

/-- The script of a concrete tree, in which nodes stand at most `limit` levels deep. Without a tree
there are no statements; comments belong to a script in any case. -/
def Script.ofConcrete (tokens : Array Token) (limit : Nat) (tree : Option Concrete) :
    Lowered Script := do
  let cx : Lowering := .ofTokens tokens
  let statements ← match tree with
    | none => .ok []
    | some root =>
      if root.kind = .script then cx.statements limit root
      else .error (.unexpectedNode root.kind .script)
  return { Script.empty cx.offsets.sourceLength with statements, comments := cx.comments }

end ScriptTree
