import ScriptTree.Node.Walk

/-!
The node under a stretch of source text. A query is a closed interval; one of no width is a cursor.
A cursor at a literal, a name or `this` means that node. Any other query means the node with just
that range, or else the innermost node that covers it.
-/
namespace ScriptTree.Node

/-- The best answers so far. -/
structure Sighting where
  /-- The node that answers the query exactly. -/
  answer? : Option Node := none
  /-- The last node that covers the query. -/
  cover? : Option Node := none

/-- Whether a node answers the query from `left` to `right` exactly. -/
def answers (n : Node) (left right : Nat) : Bool :=
  if left = right then n.kind.isAtomicLeaf && n.range.holds left
  else n.range.start == left && n.range.stop == right

/-- Take note of a node. What lies off the query is left out with all that is inside it. -/
def sight (left right : Nat) (s : Sighting) (n : Node) : Sighting × Verdict :=
  if !n.range.touches left right then (s, .prune)
  else if n.answers left right then ({ s with answer? := some n }, .stop)
  else if n.range.covers ⟨left, right⟩ then ({ s with cover? := some n }, .descend)
  else (s, .descend)

/-- The node inside `root` under the interval from `left` to `right`. -/
def locate? (root : Node) (left right : Nat) : Option Node :=
  let s := (walkAll (sight left right) root.children {}).1
  s.answer?.or s.cover?

end ScriptTree.Node
