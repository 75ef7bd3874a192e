import ScriptTree.Proofs.ProgramWritten
import ScriptTree.Proofs.StatementPairs

/-!
The limit on levels in a syntax tree. It is looked at before each statement and each expression. The
nodes between these, such as clauses and names, are made without a look, but there are at most two
of them on a way down, so that the limit holds for the whole tree but for a fixed number of levels.
A lowering that is not stopped by the limit does not depend on it.
-/
namespace ScriptTree
open Lowered

/-- Node `m` is `k` levels below node `n`. -/
inductive Node.Below : Node → Nat → Node → Prop where
  | self (n : Node) : Below n 0 n
  | child {n c m : Node} {k : Nat} : c ∈ n.children → Below c k m → Below n (k + 1) m

namespace Node
variable {P : Nat → Node → Prop} {d k : Nat} {n m : Node}

theorem Everywhere.at_level (h : n.Everywhere P d) (hm : n.Below k m) : P (d + k) m := by
  induction hm generalizing d with
  | self n =>
    obtain ⟨hn, -⟩ := h
    exact hn
  | @child _ _ _ k hc _ ih =>
    obtain ⟨-, hchildren⟩ := h
    have hm := ih (hchildren _ hc)
    rwa [Nat.add_right_comm] at hm

theorem exists_below (h : m ∈ n.preorder) : ∃ k, n.Below k m := by
  induction n using preorder.induct with
  | case1 n ih =>
    rw [preorder_eq] at h
    rcases List.mem_cons.mp h with rfl | h
    · exact ⟨0, .self m⟩
    · obtain ⟨c, hc, hm⟩ := List.mem_flatMap.mp h
      obtain ⟨k, hk⟩ := ih ⟨c, hc⟩ hm
      exact ⟨k + 1, .child hc hk⟩

end Node

/-- A node of a script is the script, a comment or inside of a statement. -/
theorem Script.below_cases {script : Script} {k : Nat} {n : Node}
    (h : script.toNode.Below k n) : k = 0 ∧ n = script.toNode ∨
      k = 1 ∧ (∃ comment, n = .comment comment) ∨
      ∃ j, k = j + 1 ∧ ∃ statement ∈ script.statements, statement.Below j n := by
  cases h with
  | self => exact .inl ⟨rfl, rfl⟩
  | child hc hn =>
    rcases List.mem_merge.mp hc with hc | hc
    · obtain ⟨comment, -, rfl⟩ := List.mem_map.mp hc
      cases hn with
      | self => exact .inr (.inl ⟨rfl, comment, rfl⟩)
      | child hc _ => cases hc
    · exact .inr (.inr ⟨_, rfl, _, hc, hn⟩)

/-- In a script whose statements may stand where they do, nodes are at most three levels deeper than
the limit: one for the script and two for what is made without a look at the limit. -/
theorem Pairing.depth_le {w : Pairing} {script : Script}
    (h : ∀ n ∈ script.statements, w.Grown 0 n) {k : Nat} {n : Node}
    (hn : script.toNode.Below k n) : k ≤ w.limit + 3 := by
  obtain ⟨rfl, -⟩ | ⟨rfl, -⟩ | ⟨j, rfl, statement, hstatement, hn⟩ := Script.below_cases hn
  · exact Nat.zero_le _
  · exact Nat.le_add_left 1 _
  · have hle := ((h statement hstatement).at_level hn).depth_le
    omega

/-- What is made of a row of trees in such a script was made by one of the rules that do so. -/
theorem Pairing.made_of_hasRow {w : Pairing} {script : Script}
    (h : ∀ n ∈ script.statements, w.Grown 0 n) {n : Node} (hn : n ∈ script.toNode.preorder)
    (hrow : n.hasRow = true) : w.Made n := by
  obtain ⟨k, hbelow⟩ := Node.exists_below hn
  obtain ⟨-, rfl⟩ | ⟨-, comment, rfl⟩ | ⟨j, -, statement, hstatement, hbelow⟩ :=
    Script.below_cases hbelow
  · cases hrow
  · cases hrow
  · exact ((h statement hstatement).at_level hbelow).made hrow

/-- Lowering a tree within a limit and within a greater one. -/
theorem Pairing.alike_any (tokens : Array Token) (tree : Option Concrete) {limit limit' : Nat}
    (hlimit : limit ≤ limit') :
    Alike limit (fun script => ∀ n ∈ script.statements, (any (.ofTokens tokens) limit).Grown 0 n)
      (Script.ofConcrete tokens limit tree) (Script.ofConcrete tokens limit' tree) := by
  refine (any (.ofTokens tokens) limit).alike_script rfl hlimit ?_
  cases tree with
  | none => exact .none
  | some root => exact .some ⟨⟨rfl, trivial⟩, rfl⟩

/-- The limit on levels holds but for a fixed number of them, a greater limit changes nothing, and
what fails because of the limit says so. -/
theorem ofConcrete_limit_exact (tokens : Array Token) (tree : Option Concrete)
    {limit limit' : Nat} (hlimit : limit ≤ limit') :
    (∀ script, Script.ofConcrete tokens limit tree = .ok script →
      Script.ofConcrete tokens limit' tree = .ok script ∧
        ∀ k n, script.toNode.Below k n → k ≤ limit + 3) ∧
    ∀ script error, Script.ofConcrete tokens limit' tree = .ok script →
      Script.ofConcrete tokens limit tree = .error error → error = .tooDeep limit := by
  have halike := Pairing.alike_any tokens tree hlimit
  constructor
  · intro script hscript
    rw [hscript] at halike
    generalize Script.ofConcrete tokens limit' tree = y at halike ⊢
    cases halike with
    | given hgrown => exact ⟨rfl, fun k n hn => Pairing.depth_le hgrown hn⟩
  · intro script error hscript herror
    rw [hscript, herror] at halike
    cases halike with
    | tooDeep => rfl

/-- A block in a block: the inner one is not within limit zero. -/
theorem ofConcrete_limit_exact_blocks :
    let token (kind : Kind) (text : String) (column : Nat) : Token :=
      ⟨kind, text, 1, column, column, false, false⟩
    let tokens := #[token .openBrace "\x7b" 0, token .openBrace "\x7b" 1,
      token .closeBrace "\x7d" 2, token .closeBrace "\x7d" 3]
    let tree : Concrete := .inner .script 0 (some 3)
      [.inner .block 0 (some 3) [.inner .block 1 (some 2) []]]
    (∃ script, Script.ofConcrete tokens 1 (some tree) = .ok script ∧
      Script.ofConcrete tokens 7 (some tree) = .ok script ∧
      script.toNode.Below 2 (.block ⟨1, 3⟩ (some 1) [] (some 2)) ∧
      ∀ k n, script.toNode.Below k n → k ≤ 4) ∧
    ∃ error, Script.ofConcrete tokens 0 (some tree) = .error error ∧ error = .tooDeep 0 := by
  intro token tokens tree
  have hscript : Script.ofConcrete tokens 1 (some tree) = .ok ⟨⟨0, 4⟩,
      [.block ⟨0, 4⟩ (some 0) [.block ⟨1, 3⟩ (some 1) [] (some 2)] (some 3)], []⟩ := rfl
  have herror : Script.ofConcrete tokens 0 (some tree) = .error (.tooDeep 0) := rfl
  obtain ⟨hgreater, hbelow⟩ :=
    (ofConcrete_limit_exact tokens (some tree) (by decide : 1 ≤ 7)).1 _ hscript
  refine ⟨⟨_, hscript, hgreater, ?_, hbelow⟩, _, herror, ?_⟩
  · refine .child (c := .block ⟨0, 4⟩ (some 0) [_] (some 3)) ?_
      (.child List.mem_cons_self (.self _))
    simp [Script.toNode, Node.children]
  · exact (ofConcrete_limit_exact tokens (some tree) (by decide : 0 ≤ 1)).2 _ _ hscript herror

end ScriptTree
