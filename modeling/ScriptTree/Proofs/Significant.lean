import ScriptTree.Production.Basic
import ScriptTree.Proofs.TokenOffsets

/-!
The significant tokens of a list, by their rank. The rank of a token counts the significant tokens
before it; its place counts all tokens. `Input.Over` ties the two to the list they come from.
-/
namespace ScriptTree.Input

/-- The significant token of rank `p` is of kind `k`. -/
def Sees (input : Input) (p : Nat) (k : Kind) : Prop :=
  ∃ x, input.significant[p]? = some x ∧ x.token.kind = k

/-- The kind of the token of rank `p`; the end of the input past the last one. -/
def kindAt (input : Input) (p : Nat) : Kind :=
  match input.significant[p]? with
  | some x => x.token.kind
  | none => .endOfFile

/-- The place of the token of rank `p`; past the list after the last one. -/
def indexAt (input : Input) (p : Nat) : Nat :=
  match input.significant[p]? with
  | some x => x.index
  | none => input.count

/-- The text of the token of rank `p`. -/
def textAt (input : Input) (p : Nat) : String :=
  match input.significant[p]? with
  | some x => x.token.text
  | none => ""

/-- A line ends between the token of rank `p` and the significant one before it. -/
def brokenAt (input : Input) (p : Nat) : Bool :=
  input.significant[p]?.any (·.token.lineBreakBefore)

/-- The place of the last token of a rank below `p`. -/
def lastBefore (input : Input) (p : Nat) : Option Nat :=
  if p = 0 then none else input.significant[p - 1]?.map (·.index)

/-- The place right after the last token of a rank below `p`. -/
def afterAt (input : Input) (p : Nat) : Nat :=
  match input.lastBefore p with
  | some last => last + 1
  | none => 0

/-- What is true of the significant tokens of a list: they stand in it at their places and in
order, and they are those that are not hidden. -/
structure Over (input : Input) (tokens : Array Token) : Prop where
  count_eq : input.count = tokens.size
  placed : ∀ {p : Nat} {x : Placed}, input.significant[p]? = some x →
    tokens[x.index]? = some x.token ∧ x.token.isHidden = false
  increasing : ∀ {p q : Nat} {x y : Placed}, input.significant[p]? = some x →
    input.significant[q]? = some y → p < q → x.index < y.index
  complete : ∀ {i : Nat} {t : Token}, tokens[i]? = some t → t.isHidden = false →
    ∃ p : Nat, input.significant[p]? = some (⟨i, t⟩ : Placed)

/-- The tokens of a list with their places. -/
theorem mapIdx_placed (tokens : Array Token) :
    (tokens.mapIdx fun index token => (⟨index, token⟩ : Placed)).toList.Pairwise
      (fun x y => x.index < y.index) := by
  rw [List.pairwise_iff_getElem]
  intro i j hi hj hij
  simpa using hij

theorem ofTokens_over (tokens : Array Token) (lines : LineMap) (limit : Nat) :
    (ofTokens tokens lines limit).Over tokens := by
  constructor
  · rfl
  · intro p x hx
    have hmem : x ∈ (ofTokens tokens lines limit).significant := Array.mem_of_getElem? hx
    unfold ofTokens at hmem
    dsimp only at hmem
    obtain ⟨hmem, hhidden⟩ := Array.mem_filter.mp hmem
    obtain ⟨i, hi, rfl⟩ := Array.mem_mapIdx.mp hmem
    exact ⟨Array.getElem?_eq_getElem hi, by simpa using hhidden⟩
  · intro p q x y hx hy hpq
    have hsorted : (ofTokens tokens lines limit).significant.toList.Pairwise
        (fun x y => x.index < y.index) := by
      unfold ofTokens
      dsimp only
      rw [Array.toList_filter]
      exact (mapIdx_placed tokens).filter _
    rw [← Array.getElem?_toList] at hx hy
    obtain ⟨hp, rfl⟩ := List.getElem?_eq_some_iff.mp hx
    obtain ⟨hq, rfl⟩ := List.getElem?_eq_some_iff.mp hy
    exact List.pairwise_iff_getElem.mp hsorted p q hp hq hpq
  · intro i t ht hhidden
    have hmem : (⟨i, t⟩ : Placed) ∈ (ofTokens tokens lines limit).significant := by
      unfold ofTokens
      dsimp only
      apply Array.mem_filter.mpr
      obtain ⟨hi, rfl⟩ := Array.getElem?_eq_some_iff.mp ht
      exact ⟨Array.mem_mapIdx.mpr ⟨i, hi, rfl⟩, by simpa using hhidden⟩
    exact Array.mem_iff_getElem?.mp hmem

theorem kindAt_eq_of_sees {input : Input} {p : Nat} {k : Kind} (h : input.Sees p k) :
    input.kindAt p = k := by
  obtain ⟨x, hx, rfl⟩ := h
  simp [kindAt, hx]

/-- Only the end of the input has the kind of no token. -/
theorem sees_of_kindAt {input : Input} {p : Nat} {k : Kind} (h : input.kindAt p = k)
    (hk : k ≠ .endOfFile) : input.Sees p k := by
  unfold kindAt at h
  split at h
  · rename_i x hx
    exact ⟨x, hx, h⟩
  · exact absurd h.symm hk

theorem sees_kindAt_of_lt {input : Input} {p : Nat} (h : p < input.significant.size) :
    input.Sees p (input.kindAt p) :=
  ⟨_, Array.getElem?_eq_getElem h, by simp [kindAt, h]⟩

@[grind →] theorem Sees.lt_size {input : Input} {p : Nat} {k : Kind} (h : input.Sees p k) :
    p < input.significant.size := by
  obtain ⟨x, hx, _⟩ := h
  exact (Array.getElem?_eq_some_iff.mp hx).1

theorem Sees.unique {input : Input} {p : Nat} {k k' : Kind} (h : input.Sees p k)
    (h' : input.Sees p k') : k = k' := by
  rw [← kindAt_eq_of_sees h, kindAt_eq_of_sees h']

theorem Sees.not_other {input : Input} {p : Nat} {k k' : Kind} (h : input.Sees p k)
    (hk : k ≠ k') : ¬input.Sees p k' := fun h' => hk (h.unique h')

theorem lastBefore_succ {input : Input} {p : Nat} (h : p < input.significant.size) :
    input.lastBefore (p + 1) = some (input.indexAt p) := by
  simp [lastBefore, indexAt, h]

theorem afterAt_succ {input : Input} {p : Nat} (h : p < input.significant.size) :
    input.afterAt (p + 1) = input.indexAt p + 1 := by
  rw [afterAt, lastBefore_succ h]

@[simp] theorem afterAt_zero (input : Input) : input.afterAt 0 = 0 := rfl

namespace Over
variable {input : Input} {tokens : Array Token} (hover : input.Over tokens)
include hover

theorem indexAt_le_count (p : Nat) : input.indexAt p ≤ input.count := by
  unfold indexAt
  split
  · rename_i x hx
    obtain ⟨hi, _⟩ := Array.getElem?_eq_some_iff.mp (hover.placed hx).1
    rw [hover.count_eq]
    exact Nat.le_of_lt hi
  · exact Nat.le_refl _

theorem indexAt_lt_count {p : Nat} (h : p < input.significant.size) :
    input.indexAt p < input.count := by
  unfold indexAt
  rw [Array.getElem?_eq_getElem h, hover.count_eq]
  exact (Array.getElem?_eq_some_iff.mp (hover.placed (Array.getElem?_eq_getElem h)).1).1

theorem indexAt_lt {p q : Nat} (hp : p < input.significant.size) (h : p < q) :
    input.indexAt p < input.indexAt q := by
  by_cases hq : q < input.significant.size
  · have hx := Array.getElem?_eq_getElem hp
    have hy := Array.getElem?_eq_getElem hq
    have hlt := hover.increasing hx hy h
    simpa [indexAt, hx, hy] using hlt
  · have hnone : input.indexAt q = input.count := by simp [indexAt, hq]
    rw [hnone]
    exact hover.indexAt_lt_count hp

theorem indexAt_mono {p q : Nat} (h : p ≤ q) : input.indexAt p ≤ input.indexAt q := by
  by_cases hp : p < input.significant.size
  · rcases Nat.lt_or_eq_of_le h with hlt | rfl
    · exact Nat.le_of_lt (hover.indexAt_lt hp hlt)
    · exact Nat.le_refl _
  · have hq : ¬q < input.significant.size := by omega
    simp [indexAt, hp, hq]

/-- What comes after the tokens before rank `p` comes no later than the token of that rank. -/
theorem afterAt_le_indexAt (p : Nat) : input.afterAt p ≤ input.indexAt p := by
  cases p with
  | zero => exact Nat.zero_le _
  | succ p =>
    by_cases hp : p < input.significant.size
    · rw [afterAt_succ hp]
      exact hover.indexAt_lt hp (Nat.lt_succ_self p)
    · simp [afterAt, lastBefore, hp]

theorem indexAt_lt_afterAt {p q : Nat} (hq : q ≤ input.significant.size) (h : p < q) :
    input.indexAt p < input.afterAt q := by
  obtain ⟨r, rfl⟩ : ∃ r, q = r + 1 := ⟨q - 1, by omega⟩
  rw [afterAt_succ (by omega)]
  exact Nat.lt_succ_of_le (hover.indexAt_mono (by omega))

theorem afterAt_mono {p q : Nat} (hq : q ≤ input.significant.size) (h : p ≤ q) :
    input.afterAt p ≤ input.afterAt q := by
  rcases Nat.lt_or_eq_of_le h with hlt | rfl
  · exact Nat.le_trans (hover.afterAt_le_indexAt p)
      (Nat.le_of_lt (hover.indexAt_lt_afterAt hq hlt))
  · exact Nat.le_refl _

/-- A token between two significant ones is hidden, so ranks tell all significant tokens. -/
theorem sees_of_token {i : Nat} {t : Token} (ht : tokens[i]? = some t)
    (hhidden : t.isHidden = false) :
    ∃ p, p < input.significant.size ∧ input.indexAt p = i ∧ input.Sees p t.kind := by
  obtain ⟨p, hp⟩ := hover.complete ht hhidden
  exact ⟨p, (Array.getElem?_eq_some_iff.mp hp).1, by simp [indexAt, hp], ⟨_, hp, rfl⟩⟩

theorem token_of_sees {p : Nat} {k : Kind} (h : input.Sees p k) :
    ∃ t, tokens[input.indexAt p]? = some t ∧ t.kind = k ∧ t.isHidden = false ∧
      t.text = input.textAt p := by
  obtain ⟨x, hx, rfl⟩ := h
  obtain ⟨htoken, hhidden⟩ := hover.placed hx
  exact ⟨x.token, by simpa [indexAt, hx] using htoken, rfl, hhidden, by simp [textAt, hx]⟩

theorem rank_lt_of_indexAt_lt {p q : Nat} (h : input.indexAt p < input.indexAt q) : p < q := by
  by_contra hle
  exact Nat.not_le_of_lt h (hover.indexAt_mono (Nat.le_of_not_lt hle))

theorem rank_ge_of_indexAt_le {p j : Nat} (hp : p < input.significant.size)
    (h : input.indexAt p ≤ input.indexAt j) : p ≤ j := by
  by_contra hlt
  exact Nat.not_le_of_lt (hover.indexAt_lt (by omega) (Nat.lt_of_not_le hlt)) h

/-- Ranks of tokens in a window that begins after the tokens before rank `p`. -/
theorem rank_ge_of_afterAt_le {p j : Nat} (hp : p ≤ input.significant.size)
    (h : input.afterAt p ≤ input.indexAt j) : p ≤ j := by
  by_contra hlt
  exact Nat.not_le_of_lt (hover.indexAt_lt_afterAt hp (Nat.lt_of_not_le hlt)) h

end Over
end ScriptTree.Input
