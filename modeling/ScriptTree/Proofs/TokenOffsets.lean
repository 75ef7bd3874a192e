import Mathlib.Data.List.Induction
import ScriptTree.Token.Table

/-! Where tokens begin: the start of a token is the length of all tokens before it. -/
namespace ScriptTree

/-- The length of tokens written one after the other. -/
def totalLength : List Token → Nat
  | [] => 0
  | t :: rest => t.length + totalLength rest

@[simp] theorem totalLength_nil : totalLength [] = 0 := rfl

@[simp] theorem totalLength_append (a b : List Token) :
    totalLength (a ++ b) = totalLength a + totalLength b := by
  induction a with
  | nil => simp
  | cons t rest ih => simp [totalLength, ih, Nat.add_assoc]

@[simp] theorem totalLength_singleton (t : Token) : totalLength [t] = t.length := by
  simp [totalLength]

theorem totalLength_take_le (tokens : List Token) {i j : Nat} (h : i ≤ j) :
    totalLength (tokens.take i) ≤ totalLength (tokens.take j) := by
  obtain ⟨k, rfl⟩ := Nat.exists_eq_add_of_le h
  rw [List.take_add, totalLength_append]
  exact Nat.le_add_right _ _

/-- The starts that a pass over a list of tokens collects. -/
theorem foldl_starts (tokens : List Token) :
    tokens.foldl (fun starts t => starts.push (starts.back?.getD 0 + t.length)) #[0] =
      ((List.range (tokens.length + 1)).map fun i => totalLength (tokens.take i)).toArray := by
  induction tokens using List.reverseRecOn with
  | nil => rfl
  | append_singleton tokens t ih =>
    have hback : ((List.range (tokens.length + 1)).map
        fun i => totalLength (tokens.take i)).toArray.back?.getD 0 = totalLength tokens := by
      simp [List.range_succ]
    have hbefore : (List.range (tokens.length + 1)).map (fun i => totalLength (tokens.take i)) =
        (List.range (tokens.length + 1)).map fun i => totalLength ((tokens ++ [t]).take i) := by
      apply List.map_congr_left
      intro i hi
      rw [List.take_append_of_le_length (Nat.lt_succ_iff.mp (List.mem_range.mp hi))]
    have hlast : totalLength tokens + t.length =
        totalLength ((tokens ++ [t]).take (tokens.length + 1)) := by
      rw [List.take_of_length_le (by simp), totalLength_append, totalLength_singleton]
    rw [List.foldl_append, List.foldl_cons, List.foldl_nil, ih, hback, hbefore, hlast,
      List.push_toArray, List.length_append, List.length_singleton,
      List.range_succ (n := tokens.length + 1), List.map_append, List.map_singleton]

namespace Offsets

theorem starts_ofTokens (tokens : Array Token) :
    (ofTokens tokens).starts =
      ((List.range (tokens.size + 1)).map fun i => totalLength (tokens.toList.take i)).toArray := by
  rw [ofTokens, ← Array.foldl_toList, foldl_starts, Array.length_toList]

/-- A token begins where the tokens before it end. -/
theorem get_ofTokens (tokens : Array Token) (i : Nat) :
    (ofTokens tokens).get i = totalLength (tokens.toList.take i) := by
  have hmin : tokens.toList.take (min i tokens.size) = tokens.toList.take i := by
    rw [← Array.length_toList, ← List.take_eq_take_min]
  have hlt : min i tokens.size < tokens.size + 1 := by omega
  rw [get, starts_ofTokens]
  simp [hlt, hmin]

theorem sourceLength_ofTokens (tokens : Array Token) :
    (ofTokens tokens).sourceLength = totalLength tokens.toList := by
  have htake : tokens.toList.take tokens.size = tokens.toList := by
    rw [← Array.length_toList, List.take_length]
  rw [sourceLength, starts_ofTokens]
  simp [List.range_succ, htake]

end Offsets

namespace TokenTable

@[simp] theorem ofTokens_tokens (tokens : Array Token) : (ofTokens tokens).tokens = tokens := rfl

theorem offset_ofTokens (tokens : Array Token) (i : Nat) :
    (ofTokens tokens).offset i = totalLength (tokens.toList.take i) :=
  Offsets.get_ofTokens tokens i

/-- The positions of tokens grow with their places. -/
theorem offset_mono (tokens : Array Token) {i j : Nat} (h : i ≤ j) :
    (ofTokens tokens).offset i ≤ (ofTokens tokens).offset j := by
  rw [offset_ofTokens, offset_ofTokens]
  exact totalLength_take_le _ h

theorem offset_succ {tokens : Array Token} {i : Nat} {t : Token} (h : tokens[i]? = some t) :
    (ofTokens tokens).offset (i + 1) = (ofTokens tokens).offset i + t.length := by
  have hl : tokens.toList[i]? = some t := by simpa using h
  rw [offset_ofTokens, offset_ofTokens, List.take_add_one, hl]
  simp

theorem offset_le_length (tokens : Array Token) (i : Nat) :
    (ofTokens tokens).offset i ≤ (Offsets.ofTokens tokens).sourceLength := by
  rw [offset_ofTokens, Offsets.sourceLength_ofTokens]
  calc totalLength (tokens.toList.take i)
      ≤ totalLength (tokens.toList.take (max i tokens.toList.length)) :=
        totalLength_take_le _ (Nat.le_max_left _ _)
    _ = totalLength tokens.toList := by rw [List.take_of_length_le (Nat.le_max_right _ _)]

end TokenTable
end ScriptTree
