import ScriptTree.Lowering.Basic
import ScriptTree.Proofs.ExactSearch
import ScriptTree.Proofs.Significant

/-!
Searches for significant tokens. A search for a kind of token that is not hidden finds the token of
the least rank in the window.
-/
namespace ScriptTree

namespace Lowering

theorem index?_spec {cx : Lowering} {k : Kind} {start bound i : Nat}
    (h : index? cx k start bound = some i) :
    start ≤ i ∧ i < bound ∧ ∃ x, cx.tokens[i]? = some x ∧ x.kind = k := by
  rw [index?] at h
  split at h
  · obtain ⟨hle, hlt, x, hx, hkind⟩ := TokenTable.search?_spec h
    exact ⟨hle, by omega, x, hx, beq_iff_eq.mp hkind⟩
  · cases h

open Input
variable {input : Input} {tokens : Array Token} (hover : input.Over tokens) {k : Kind}
  {m start bound : Nat}
include hover

/-- A token of a significant kind has a rank. -/
theorem rank_of_kind {l : Nat} {u : Token} (hk : k.isHidden = false) (hu : tokens[l]? = some u)
    (hkind : u.kind = k) : ∃ j, input.indexAt j = l ∧ input.Sees j k := by
  have hhidden : u.isHidden = false := by rw [Token.isHidden, hkind, hk]
  obtain ⟨j, _, hj, hsees⟩ := hover.sees_of_token hu hhidden
  exact ⟨j, hj, hkind ▸ hsees⟩

theorem isHidden_of_sees (h : input.Sees m k) : k.isHidden = false := by
  obtain ⟨t, _, rfl, hhidden, _⟩ := hover.token_of_sees h
  exact hhidden

theorem index?_eq_some (hsees : input.Sees m k) (hstart : start ≤ input.indexAt m)
    (hbound : input.indexAt m < bound)
    (hfirst : ∀ j, j < m → start ≤ input.indexAt j → ¬input.Sees j k) :
    index? (.ofTokens tokens) k start bound = some (input.indexAt m) := by
  obtain ⟨t, ht, hkind, _, _⟩ := hover.token_of_sees hsees
  rw [index?, if_pos (Nat.lt_of_le_of_lt hstart hbound)]
  refine TokenTable.search?_eq_some hstart (by omega) ht (by simp [hkind]) ?_
  intro l u hl hlt hu
  rw [beq_eq_false_iff_ne]
  intro hkind'
  obtain ⟨j, rfl, hj⟩ := rank_of_kind hover (isHidden_of_sees hover hsees) hu hkind'
  exact hfirst j (hover.rank_lt_of_indexAt_lt hlt) hl hj

theorem index?_eq_none (hk : k.isHidden = false)
    (h : ∀ j, start ≤ input.indexAt j → input.indexAt j < bound → ¬input.Sees j k) :
    index? (.ofTokens tokens) k start bound = none := by
  rw [index?]
  split
  · rename_i hlt
    refine TokenTable.search?_eq_none ?_ 0
    intro l u hl hle hu
    rw [beq_eq_false_iff_ne]
    intro hkind
    obtain ⟨j, rfl, hj⟩ := rank_of_kind hover hk hu hkind
    exact h j hl (by omega) hj
  · rfl

/-- A token that is there is found, or another of its kind before it. -/
theorem exists_index? (hsees : input.Sees m k) (hstart : start ≤ input.indexAt m)
    (hbound : input.indexAt m < bound) :
    ∃ j, input.Sees j k ∧ index? (.ofTokens tokens) k start bound = some (input.indexAt j) := by
  induction m using Nat.strongRecOn with
  | ind m ih =>
    by_cases hfirst : ∃ j, j < m ∧ start ≤ input.indexAt j ∧ input.Sees j k
    · obtain ⟨j, hj, hstart', hsees'⟩ := hfirst
      exact ih j hj hsees' hstart'
        (Nat.lt_of_le_of_lt (hover.indexAt_mono (Nat.le_of_lt hj)) hbound)
    · refine ⟨m, hsees, index?_eq_some hover hsees hstart hbound ?_⟩
      intro j hj hstart' hsees'
      exact hfirst ⟨j, hj, hstart', hsees'⟩

/-- The word of a token, as a keyword of the tree. -/
theorem keywordAt?_of_sees (hsees : input.Sees m k) :
    keywordAt? (.ofTokens tokens) (input.indexAt m) =
      some ⟨.ofLength (TokenTable.offset (.ofTokens tokens) (input.indexAt m))
        (input.textAt m).utf8ByteSize, k⟩ := by
  obtain ⟨t, ht, rfl, _, htext⟩ := hover.token_of_sees hsees
  rw [keywordAt?, TokenTable.ofTokens_tokens, ht, Option.map_some, Token.length, htext]

theorem keyword_of_sees (hsees : input.Sees m k) :
    keyword (.ofTokens tokens) k (input.indexAt m) =
      .ok ⟨.ofLength (TokenTable.offset (.ofTokens tokens) (input.indexAt m))
        (input.textAt m).utf8ByteSize, k⟩ := by
  rw [keyword, keyword?, index?_eq_some hover hsees (Nat.le_refl _) (Nat.lt_succ_self _),
    Option.bind_some, keywordAt?_of_sees hover hsees]
  intro j hj hle _
  exact absurd (hover.rank_ge_of_indexAt_le hsees.lt_size hle) (Nat.not_le_of_lt hj)

end Lowering
end ScriptTree
