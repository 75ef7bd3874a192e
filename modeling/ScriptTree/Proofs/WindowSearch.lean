import ScriptTree.Proofs.CleanTrees
import ScriptTree.Proofs.TokenSearch
import ScriptTree.Proofs.WrittenOrder

/-!
Searches between the trees of well-formed text. The first significant token after a tree is the one
that the grammar read after it, so a search for it from the end of the tree finds that token.
-/
namespace ScriptTree.Lowering
open Input
variable {input : Input} {tokens : Array Token} (hover : input.Over tokens) {k tag : Kind}
  {m p q start bound : Nat} {t : Concrete}

section
include hover

theorem index?_of_meets (h : input.Meets start m) (hsees : input.Sees m k)
    (hbound : input.indexAt m < bound) :
    index? (.ofTokens tokens) k start bound = some (input.indexAt m) := by
  refine index?_eq_some hover hsees h.1 hbound fun j hj hle _ => ?_
  exact absurd (h.2 j hj) (Nat.not_lt_of_le hle)

/-- A token after others of another kind. -/
theorem index?_of_follows (h : input.Follows tag start m) (hne : tag ≠ k)
    (hsees : input.Sees m k) (hbound : input.indexAt m < bound) :
    index? (.ofTokens tokens) k start bound = some (input.indexAt m) := by
  refine index?_eq_some hover hsees h.1 hbound fun j hj hle hother => ?_
  exact hne ((h.2 j hj hle).unique hother)

/-- No token is found where only others stand. -/
theorem index?_eq_none_of_follows (h : input.Follows tag start m) (hne : tag ≠ k)
    (hk : k.isHidden = false) (hbound : bound ≤ input.indexAt m) :
    index? (.ofTokens tokens) k start bound = none := by
  refine index?_eq_none hover hk fun j hle hlt hother => ?_
  have hj : j < m := hover.rank_lt_of_indexAt_lt (Nat.lt_of_lt_of_le hlt hbound)
  exact hne ((h.2 j hj hle).unique hother)

theorem position?_of_meets (h : input.Meets start m) (hsees : input.Sees m k)
    (hbound : input.indexAt m < bound) :
    position? (.ofTokens tokens) k start bound = some (input.startAt tokens m) := by
  rw [position?, index?_of_meets hover h hsees hbound]
  rfl

theorem position?_of_follows (h : input.Follows tag start m) (hne : tag ≠ k)
    (hsees : input.Sees m k) (hbound : input.indexAt m < bound) :
    position? (.ofTokens tokens) k start bound = some (input.startAt tokens m) := by
  rw [position?, index?_of_follows hover h hne hsees hbound]
  rfl

theorem position_of_meets (h : input.Meets start m) (hsees : input.Sees m k)
    (hbound : input.indexAt m < bound) :
    position (.ofTokens tokens) k start bound = .ok (input.startAt tokens m) := by
  rw [position, position?_of_meets hover h hsees hbound]

/-- An operator, by its tag or by the token it is written as. -/
theorem operatorPosition_of_meets (h : input.Meets start m) (hsees : input.Sees m k)
    (htag : tag = k ∨ tag.operatorToken? = some k ∧ tag.isHidden = false ∧ tag ≠ k)
    (hbound : input.indexAt m < bound) (hend : bound ≤ input.indexAt (m + 1)) :
    operatorPosition (.ofTokens tokens) tag start bound = .ok (input.startAt tokens m) := by
  have hlt : start < bound := Nat.lt_of_le_of_lt h.1 hbound
  have hfound := index?_of_meets hover h hsees hbound
  rw [index?, if_pos hlt] at hfound
  rw [operatorPosition, if_pos hlt, TokenTable.findOperator?]
  rcases htag with rfl | ⟨htoken, hhidden, hne⟩
  · rw [hfound]
    rfl
  · have hnone : index? (.ofTokens tokens) tag start bound = none := by
      refine index?_eq_none hover hhidden fun j hle hj hother => ?_
      have hjm : j < m + 1 := hover.rank_lt_of_indexAt_lt (Nat.lt_of_lt_of_le hj hend)
      have hmj : ¬j < m := fun hlt => absurd (h.2 j hlt) (Nat.not_lt_of_le hle)
      obtain rfl : j = m := by omega
      exact hne (hother.unique hsees)
    rw [index?, if_pos hlt] at hnone
    rw [hnone, htoken, Option.bind_some, hfound]
    rfl

theorem keyword?_of_meets (h : input.Meets start m) (hsees : input.Sees m k)
    (hbound : input.indexAt m < bound) :
    keyword? (.ofTokens tokens) k start bound = some ⟨input.rangeAt tokens m, k⟩ := by
  rw [keyword?, index?_of_meets hover h hsees hbound]
  exact keywordAt?_of_sees hover hsees

theorem keyword?_of_follows (h : input.Follows tag start m) (hne : tag ≠ k)
    (hsees : input.Sees m k) (hbound : input.indexAt m < bound) :
    keyword? (.ofTokens tokens) k start bound = some ⟨input.rangeAt tokens m, k⟩ := by
  rw [keyword?, index?_of_follows hover h hne hsees hbound]
  exact keywordAt?_of_sees hover hsees

/-- The next significant token from place `start` on. -/
theorem nextSignificant?_of_meets (h : input.Meets start m) (hm : m < input.significant.size)
    (hbound : input.indexAt m ≤ bound) :
    TokenTable.nextSignificant? (.ofTokens tokens) start bound = some (input.indexAt m) := by
  obtain ⟨x, hx, _, hhidden, _⟩ := hover.token_of_sees (sees_kindAt_of_lt hm)
  refine TokenTable.search?_eq_some h.1 hbound hx (by simp [hhidden]) fun l y hl hlt hy => ?_
  rw [Bool.not_eq_false']
  by_contra hsignificant
  obtain ⟨j, _, rfl, _⟩ := hover.sees_of_token hy (Bool.eq_false_iff.mpr hsignificant)
  exact Nat.not_lt_of_le hl (h.2 j (hover.rank_lt_of_indexAt_lt hlt))

theorem nextSignificant?_eq_none (h : input.Meets start m)
    (hbound : m < input.significant.size → bound < input.indexAt m) :
    TokenTable.nextSignificant? (.ofTokens tokens) start bound = none := by
  refine TokenTable.search?_eq_none (fun l y hl hle hy => ?_) 0
  rw [Bool.not_eq_false']
  by_contra hsignificant
  obtain ⟨j, hj, rfl, _⟩ := hover.sees_of_token hy (Bool.eq_false_iff.mpr hsignificant)
  have hmj : ¬j < m := fun hlt => Nat.not_lt_of_le hl (h.2 j hlt)
  have hlt := hbound (by omega)
  have hmono := hover.indexAt_mono (Nat.le_of_not_lt hmj)
  omega

/-! The token right after a tree. -/

theorem position?_after (ht : input.Stands p m t) (hsees : input.Sees m k)
    (hbound : input.indexAt m < bound) :
    position? (.ofTokens tokens) k t.after bound = some (input.startAt tokens m) :=
  position?_of_meets hover (ht.meets hover) hsees hbound

theorem position_after (ht : input.Stands p m t) (hsees : input.Sees m k)
    (hbound : input.indexAt m < bound) :
    position (.ofTokens tokens) k t.after bound = .ok (input.startAt tokens m) :=
  position_of_meets hover (ht.meets hover) hsees hbound

/-- The first token of a tree. -/
theorem index?_first (ht : input.Stands p q t) (hsees : input.Sees p k)
    (hbound : input.indexAt p < bound) :
    index? (.ofTokens tokens) k t.start bound = some (input.indexAt p) :=
  index?_of_meets hover (ht.meets_start hover) hsees hbound

theorem position_first (ht : input.Stands p q t) (hsees : input.Sees p k) :
    position (.ofTokens tokens) k t.start (t.start + 1) = .ok (input.startAt tokens p) := by
  refine position_of_meets hover (ht.meets_start hover) hsees ?_
  rw [ht.start_eq]
  exact Nat.lt_succ_self _

theorem keyword_first (ht : input.Stands p q t) (hsees : input.Sees p k) :
    keyword (.ofTokens tokens) k t.start = .ok ⟨input.rangeAt tokens p, k⟩ := by
  rw [ht.start_eq]
  exact keyword_of_sees hover hsees

/-- The second token of a tree. -/
theorem position?_second (ht : input.Stands p q t) (hsees : input.Sees (p + 1) k)
    (hbound : input.indexAt (p + 1) < bound) :
    position? (.ofTokens tokens) k (t.start + 1) bound = some (input.startAt tokens (p + 1)) :=
  position?_of_meets hover (ht.meets_second hover) hsees hbound

end

/-- The range of a tree goes from its first token to its last. -/
theorem spans_rangeOf (cuts : input.Cuts tokens) (h : input.Stands p q t) :
    input.Spans tokens p q (rangeOf (.ofTokens tokens) t) where
  lt := h.lt
  le_size := h.le_size
  start_eq := by rw [rangeOf, h.start_eq]; rfl
  stop_eq := by
    rw [rangeOf, h.start_eq, h.after_eq]
    exact Nat.max_eq_left (Nat.le_of_lt (cuts.startAt_lt_stopAt h.le_size h.lt))

end ScriptTree.Lowering
