import ScriptTree.Node

/-!
Going through a tree. `walk` visits a node before its children and the children from first to last;
it keeps the nodes still to be visited in a list, so that its own depth does not grow with the
tree. `preorder` is the list of all nodes in the same order.
-/
namespace ScriptTree.Node

/-- The size of all nodes of a list together. -/
noncomputable def totalSize : List Node → Nat
  | [] => 0
  | n :: rest => sizeOf n + totalSize rest

theorem totalSize_append (a b : List Node) : totalSize (a ++ b) = totalSize a + totalSize b := by
  induction a with
  | nil => rw [List.nil_append, totalSize, Nat.zero_add]
  | cons n rest ih => rw [List.cons_append, totalSize, totalSize, ih, Nat.add_assoc]

theorem totalSize_of_perm {a b : List Node} (h : a.Perm b) : totalSize a = totalSize b := by
  induction h with
  | nil => rfl
  | cons n _ ih => rw [totalSize, totalSize, ih]
  | swap n m rest => rw [totalSize, totalSize, totalSize, totalSize]; omega
  | trans _ _ ih₁ ih₂ => rw [ih₁, ih₂]

theorem totalSize_le (nodes : List Node) : totalSize nodes ≤ sizeOf nodes := by
  induction nodes with
  | nil => exact Nat.zero_le _
  | cons n rest ih =>
    rw [totalSize, List.cons.sizeOf_spec]
    omega

theorem totalSize_toList_le (node : Option Node) : totalSize node.toList ≤ sizeOf node := by
  cases node with
  | none => exact Nat.zero_le _
  | some n =>
    rw [Option.toList, totalSize, totalSize, Option.some.sizeOf_spec]
    omega

theorem totalSize_keyword_le (word : Option Keyword) :
    totalSize (word.map Node.keyword).toList ≤ sizeOf word := by
  cases word with
  | none => exact Nat.zero_le _
  | some w =>
    rw [Option.map, Option.toList, totalSize, totalSize, Node.keyword.sizeOf_spec,
      Option.some.sizeOf_spec]
    omega

theorem totalSize_label_le (target : Option Label) :
    totalSize (target.map Node.label).toList ≤ sizeOf target := by
  cases target with
  | none => exact Nat.zero_le _
  | some l =>
    rw [Option.map, Option.toList, totalSize, totalSize, Node.label.sizeOf_spec,
      Option.some.sizeOf_spec]
    omega

theorem totalSize_comments_le (comments : List Comment) :
    totalSize (comments.map Node.comment) ≤ sizeOf comments := by
  induction comments with
  | nil => exact Nat.zero_le _
  | cons c rest ih =>
    rw [List.map_cons, totalSize, Node.comment.sizeOf_spec, List.cons.sizeOf_spec]
    omega

theorem sizeOf_range_pos (r : Range) : 0 < sizeOf r := by
  cases r
  rw [Range.mk.sizeOf_spec]
  omega

theorem sizeOf_position_pos (pos : Option Nat) : 0 < sizeOf pos := by
  cases pos with
  | none => rw [Option.none.sizeOf_spec]; omega
  | some n => rw [Option.some.sizeOf_spec]; omega

/-- The children of a node are smaller than the node, all of them together. -/
theorem totalSize_children_lt (n : Node) : totalSize n.children < sizeOf n := by
  cases n with
  | script r statements comments =>
    have hp : ((comments.map Node.comment).merge statements startsNoLater).Perm
        (comments.map Node.comment ++ statements) := List.merge_perm_append startsNoLater
    have hc := totalSize_comments_le comments
    have hs := totalSize_le statements
    rw [children, totalSize_of_perm hp, totalSize_append, Node.script.sizeOf_spec]
    omega
  | _ =>
    simp [children, totalSize, totalSize_append] <;>
      grind [totalSize_le, totalSize_toList_le, totalSize_keyword_le, totalSize_label_le,
        sizeOf_range_pos, sizeOf_position_pos]

theorem sizeOf_pos (n : Node) : 0 < sizeOf n :=
  Nat.lt_of_le_of_lt (Nat.zero_le _) (totalSize_children_lt n)

theorem sizeOf_le_totalSize {c : Node} {nodes : List Node} (h : c ∈ nodes) :
    sizeOf c ≤ totalSize nodes := by
  induction nodes with
  | nil => cases h
  | cons n rest ih =>
    rw [totalSize]
    rcases List.mem_cons.mp h with rfl | h
    · exact Nat.le_add_right _ _
    · exact Nat.le_trans (ih h) (Nat.le_add_left _ _)

theorem sizeOf_lt_of_mem_children {c n : Node} (h : c ∈ n.children) : sizeOf c < sizeOf n :=
  Nat.lt_of_le_of_lt (sizeOf_le_totalSize h) (totalSize_children_lt n)

/-- What a visitor says of a node: go on inside it, leave out what is inside it, or end. -/
inductive Verdict where
  | descend | prune | stop
  deriving DecidableEq, Repr

/-- Visit the nodes of a list and those inside them. The result tells whether no visit ended it. -/
def walkAll {σ : Type} (visit : σ → Node → σ × Verdict) : List Node → σ → σ × Bool
  | [], s => (s, true)
  | n :: rest, s =>
    match visit s n with
    | (s', .stop) => (s', false)
    | (s', .prune) => walkAll visit rest s'
    | (s', .descend) => walkAll visit (n.children ++ rest) s'
termination_by pending => totalSize pending
decreasing_by
  · have := sizeOf_pos n
    rw [totalSize]
    omega
  · have := totalSize_children_lt n
    rw [totalSize, totalSize_append]
    omega

/-- Visit a node and those inside it. -/
def walk {σ : Type} (visit : σ → Node → σ × Verdict) (root : Node) (s : σ) : σ × Bool :=
  walkAll visit [root] s

/-- A node and all nodes inside it, each before those inside it. -/
def preorder (n : Node) : List Node :=
  n :: n.children.attach.flatMap fun c => preorder c.1
termination_by sizeOf n
decreasing_by exact sizeOf_lt_of_mem_children c.2

/-- All nodes inside a node. -/
def descendants (n : Node) : List Node := n.children.flatMap preorder

end ScriptTree.Node
