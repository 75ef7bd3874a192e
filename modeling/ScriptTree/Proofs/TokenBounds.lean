import ScriptTree.Proofs.ExpressionStrata
import ScriptTree.Proofs.TreeBounds

/-!
The bounds of concrete trees. Every node of a tree of the grammar names its first and last token
rightly, in text with faults too: its own end is that of all that is in it, and only a node without
tokens may stand right after the list.
-/
namespace ScriptTree

/-- Where a node stands in a list of tokens. -/
structure Concrete.Bounded (tokens : Array Token) (t : Concrete) : Prop where
  /-- No child ends after the node. -/
  last_eq : t.lastToken? = t.stop
  /-- A node ends with a significant token, and not before it begins. -/
  stop : ∀ s, t.stop = some s →
    t.start ≤ s ∧ s < tokens.size ∧ ∃ u, tokens[s]? = some u ∧ u.isHidden = false
  start_le : t.start ≤ tokens.size
  /-- A node with a text is the leaf of a token. -/
  leaf : ∀ text, t.text = some text →
    t.stop = some t.start ∧ t.children = [] ∧ ∃ u, tokens[t.start]? = some u ∧ u.text = text

variable {input : Input} {tokens : Array Token} {t u : Concrete}

theorem Input.Snug.contained (h : input.Snug t) (hu : t.Contains u) : input.Snug u := by
  induction hu with
  | self => exact h
  | inside hmem _ ih => exact ih (h.inside hmem)

/-- In terms of places instead of ranks. -/
theorem Input.Snug.bounded (h : input.Snug t) (hover : input.Over tokens) :
    t.Bounded tokens where
  last_eq := h.holds.anchored.last_eq
  stop := by
    intro s hs
    obtain ⟨hle, j, hj, rfl⟩ := h.holds.anchored.stop s hs
    obtain ⟨u, hu, -, hhidden, -⟩ := hover.token_of_sees (Input.sees_kindAt_of_lt hj)
    exact ⟨hle, (Array.getElem?_eq_some_iff.mp hu).1, u, hu, hhidden⟩
  start_le := hover.count_eq ▸ h.holds.anchored.start_le_count
  leaf := by
    intro text htext
    rcases h.holds.text with hnone | ⟨p, k, tag, hsees, -, rfl⟩
    · cases hnone.symm.trans htext
    · obtain ⟨u, hu, -, -, hcontent⟩ := hover.token_of_sees hsees
      exact ⟨rfl, rfl, u, hu, hcontent.trans (Option.some.inj htext)⟩

/-- Whatever tokens the grammar reads as a script, every node of the tree is bounded by them. -/
theorem program_bounded (tokens : Array Token) (lines : LineMap) (limit : Nat) (tree : Concrete)
    (c : Cursor) (h : Cursor.initial.program (.ofTokens tokens lines limit) = (.ok tree, c)) :
    ∀ t, tree.Contains t → t.Bounded tokens := by
  have hover := Input.ofTokens_over tokens lines limit
  obtain ⟨ts, rfl, hts⟩ := program_derives h
  have hnode : (Input.ofTokens tokens lines limit).Fits 0 _ [Input.nodeAt _ _ .script _ _] :=
    (hts.fits hover).node hover rfl
  have hscript := hnode (Nat.zero_le _)
  intro t ht
  have hsnug := (hscript.2.2 _ List.mem_cons_self).snug.contained ht
  exact hsnug.bounded hover

/-- A call without its argument and its closing parenthesis: the missing operand stands right after
the parenthesis, before the blank space, and every node ends with the parenthesis or before it. -/
theorem program_bounded_call :
    let tokens : Array Token := #[⟨.identifier, "f", 1, 0, 0, false, false⟩,
      ⟨.openParen, "(", 1, 1, 1, false, false⟩, ⟨.whiteSpace, " ", 1, 2, 2, false, false⟩]
    ∃ tree c, Cursor.initial.program (.ofTokens tokens (.ofText "f( ") 3) = (.ok tree, c) ∧
      tree.Contains (.absent .expr 2) ∧ ∀ t, tree.Contains t → t.Bounded tokens := by
  intro tokens
  have htree : (Cursor.initial.program (.ofTokens tokens (.ofText "f( ") 3)).1 =
      .ok (.inner .script 0 (some 1) [.inner .call 0 (some 1) [.leaf .identifier 0 "f",
        .inner .arguments 1 (some 1) [.absent .expr 2]]]) := by
    -- Closed terms are evaluated much faster.
    revert tokens
    exact rfl
  generalize hread : Cursor.initial.program (.ofTokens tokens (.ofText "f( ") 3) = result at htree
  obtain ⟨tree, c⟩ := result
  subst htree
  refine ⟨_, _, rfl, ?_, program_bounded _ _ _ _ _ hread⟩
  exact .inside List.mem_cons_self (.inside (List.mem_cons_of_mem _ List.mem_cons_self)
    (.inside List.mem_cons_self .self))

end ScriptTree
