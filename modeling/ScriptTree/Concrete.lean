import ScriptTree.Kind

/-!
Concrete trees: how the grammar arranges the significant tokens of a list. A node names its first
and last token by their places in the full list.
-/
namespace ScriptTree

structure Concrete where
  /-- The kind of the token a node is about, or its rule. -/
  kind : Kind
  /-- The first token of the node, or the token that a node without tokens stands before. -/
  start : Nat
  /-- The last token of the node, if it has any. -/
  stop : Option Nat
  /-- The text of the token, in a leaf. -/
  text : Option String
  children : List Concrete
  deriving Inhabited

namespace Concrete

/-- An inner node. -/
def inner (kind : Kind) (start : Nat) (stop : Option Nat) (children : List Concrete) : Concrete :=
  ⟨kind, start, stop, none, children⟩

/-- A node without tokens. -/
def absent (kind : Kind) (start : Nat) : Concrete := ⟨kind, start, none, none, []⟩

/-- The leaf of a single token. -/
def leaf (kind : Kind) (index : Nat) (text : String) : Concrete :=
  ⟨kind, index, some index, some text, []⟩

def child? (t : Concrete) (i : Nat) : Option Concrete := t.children[i]?

/-- Whether a node has neither tokens nor children. -/
def isEmpty (t : Concrete) : Bool := t.stop.isNone && t.children.isEmpty

/-- The text of a leaf, empty for other nodes. -/
def content (t : Concrete) : String := t.text.getD ""

mutual

/-- The last token of a node or of its last child, whichever comes later. The rule follows last
children only. -/
def lastToken? : Concrete → Option Nat
  | ⟨_, _, stop, _, children⟩ => Option.merge max stop (lastTokenOf? children)

/-- The last token of the last node of a list. -/
def lastTokenOf? : List Concrete → Option Nat
  | [] => none
  | t :: ts => if ts.isEmpty then t.lastToken? else lastTokenOf? ts

end

/-- The first token after a node. A node without tokens is followed by the one it stands before. -/
def after (t : Concrete) : Nat :=
  match t.lastToken? with
  | some last => last + 1
  | none => t.start

mutual

/-- The number of nodes on the longest way down. -/
def height : Concrete → Nat
  | ⟨_, _, _, _, children⟩ => heightOf children + 1

/-- The greatest height in a list. -/
def heightOf : List Concrete → Nat
  | [] => 0
  | t :: ts => max t.height (heightOf ts)

end

theorem height_pos (t : Concrete) : 0 < t.height := by
  cases t
  simp [height]

theorem height_le_heightOf {t : Concrete} {ts : List Concrete} (h : t ∈ ts) :
    t.height ≤ heightOf ts := by
  induction ts with
  | nil => cases h
  | cons u us ih =>
    rw [heightOf]
    rcases List.mem_cons.mp h with rfl | h
    · exact Nat.le_max_left _ _
    · exact Nat.le_trans (ih h) (Nat.le_max_right _ _)

theorem height_lt_of_mem_children {t u : Concrete} (h : t ∈ u.children) : t.height < u.height := by
  obtain ⟨_, _, _, _, children⟩ := u
  rw [height]
  exact Nat.lt_succ_of_le (height_le_heightOf h)

end Concrete
end ScriptTree
