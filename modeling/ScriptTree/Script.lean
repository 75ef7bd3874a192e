import ScriptTree.Node

/-! Scripts: the roots of syntax trees. -/
namespace ScriptTree

structure Script where
  range : Range
  statements : List Node
  /-- All comments of the source, in order. -/
  comments : List Comment

namespace Script

/-- A script of the given length in which nothing was found. -/
def empty (length : Nat) : Script := ⟨⟨0, length⟩, [], []⟩

def isEmpty (s : Script) : Bool := s.statements.isEmpty && s.comments.isEmpty

def toNode (s : Script) : Node := .script s.range s.statements s.comments

end Script
end ScriptTree
