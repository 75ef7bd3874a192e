import ScriptTree.Proofs.LineBreaks
import ScriptTree.Proofs.TokenLexemes

/-!
The flag for line ends, told by the text. A significant token has it exactly if there is a line end
in the text between the significant token before it and itself, and a hidden token never has it.
-/
namespace ScriptTree

theorem exists_hiddenRun (tokens : Array Token) (i : Nat) : ∃ k, HiddenRun tokens k i := by
  induction i with
  | zero => exact ⟨0, Nat.le_refl 0, by omega, by omega⟩
  | succ i ih =>
    by_cases hlast : ∃ t, tokens[i]? = some t ∧ t.isHidden = false
    · obtain ⟨t, ht, hsignificant⟩ := hlast
      refine ⟨i + 1, Nat.le_refl _, by omega, fun j u hj hu => ?_⟩
      obtain rfl : j = i := by omega
      obtain rfl : t = u := Option.some.inj (ht.symm.trans hu)
      exact hsignificant
    · obtain ⟨k, hk⟩ := ih
      refine ⟨k, Nat.le_succ_of_le hk.le, fun j u hkj hj hu => ?_, hk.before⟩
      rcases Nat.lt_or_eq_of_le (Nat.le_of_lt_succ hj) with hj | rfl
      · exact hk.hidden j u hkj hj hu
      · by_contra hsignificant
        exact hlast ⟨u, hu, by simpa using hsignificant⟩

/-- A significant token has the flag exactly if a line ends in the text after the significant token
before it, or after the beginning of the text if there is none. A hidden token does not have it. -/
theorem tokenize_lineBreakBefore [Alphabet] (text : String) (xmlLiterals : Bool) (i : Nat)
    (t : Token)
    (h : (tokenize text xmlLiterals).tokens[i]? = some t) :
    let tokens := (tokenize text xmlLiterals).tokens
    let offsets := Offsets.ofTokens tokens
    (t.isHidden = true → t.lineBreakBefore = false) ∧
      (t.isHidden = false → (∃ k, HiddenRun tokens k i) ∧ ∀ k, HiddenRun tokens k i →
        Range.Breaks text ⟨offsets.get k, offsets.get i⟩ t.lineBreakBefore) := by
  intro tokens offsets
  constructor
  · obtain ⟨_, _, _, _, _, hmade⟩ := tokenize_madeOf h
    exact hmade.unflagged
  · intro hsignificant
    refine ⟨exists_hiddenRun tokens i, fun k hk => ?_⟩
    refine ⟨_, (tokenize_faithful text xmlLiterals).reads_between hk.le, ?_⟩
    have hi : i ≤ tokens.size := Nat.le_of_lt (Array.getElem?_eq_some_iff.mp h).1
    rw [tokenize_flags h hsignificant, hk.brokenSince hi, String.toList_ofList, List.any_flatMap]
    rfl

/-- A line separator inside a comment before blank space. -/
theorem tokenize_lineBreakBefore_comment : ∃ t : Token, t.text = "b" ∧ t.lineBreakBefore = true ∧
    HiddenRun (tokenize "a/*\u2028*/ b" true).tokens 1 3 ∧
      Range.Breaks "a/*\u2028*/ b" ⟨1, 9⟩ t.lineBreakBefore := by
  have htoken : (tokenize "a/*\u2028*/ b" true).tokens[3]? =
    some ⟨.identifier, "b", 1, 9, 3, true, false⟩ := by rfl
  have hrun : HiddenRun (tokenize "a/*\u2028*/ b" true).tokens 1 3 := by
    refine ⟨by decide, fun j t hj hlt ht => ?_, fun j t hj ht => ?_⟩
    · obtain rfl | rfl : j = 1 ∨ j = 2 := by omega
      · cases ht
        rfl
      · cases ht
        rfl
    · obtain rfl : j = 0 := by omega
      cases ht
      rfl
  exact ⟨_, rfl, rfl, hrun, ((tokenize_lineBreakBefore _ true 3 _ htoken).2 rfl).2 1 hrun⟩

end ScriptTree
