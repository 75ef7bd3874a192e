import ScriptTree.Proofs.TokenPlaces
import ScriptTree.Proofs.WrittenOrder

/-!
Line ends between tokens. The scan looks at the kinds of hidden tokens and inside block comments
only; that is enough, since no other hidden token but a line end has a line end in it. So the flag
of a significant token tells whether a line ends between it and the significant token before.
-/
namespace ScriptTree

namespace Lexeme
open CharClass

/-- If the lexeme at the beginning of `text` is hidden, the scan finds the line ends in it. -/
def ShowsBreaks (text : List Char) (l : Lexeme) : Prop :=
  l.kind.isHidden = true →
    Scan.breaksLine l.kind (text.take l.size) = (text.take l.size).any isLineBreak

theorem showsBreaks_of_isHidden {text : List Char} {l : Lexeme} (h : l.kind.isHidden = false) :
    l.ShowsBreaks text := by
  intro hhidden
  rw [h] at hhidden
  cases hhidden

theorem isHidden_of_text? {k : Kind} (h : k.text?.isSome = true) : k.isHidden = false := by
  cases k <;> first | rfl | cases h

theorem isBlank_of_isLineBreak {c : Char} (h : isLineBreak c = true) : isBlank c = false := by
  simp only [isLineBreak, Bool.or_eq_true, beq_iff_eq] at h
  obtain ((rfl | rfl) | rfl) | rfl := h <;> decide

/-- A run of blanks stays on its line. -/
theorem blank_showsBreaks {c : Char} (hc : isBlank c = true) (rest : List Char) :
    ShowsBreaks (c :: rest) { kind := .whiteSpace, size := 1 + runLength isBlank rest } := by
  intro _
  rw [Nat.add_comm 1, List.take_succ_cons, take_runLength]
  refine (List.any_eq_false.mpr fun d hd hbreak => ?_).symm
  have hblank : isBlank d = true := by
    rcases List.mem_cons.mp hd with rfl | hd
    · exact hc
    · exact List.mem_takeWhile_imp hd
  rw [isBlank_of_isLineBreak hbreak] at hblank
  cases hblank

/-- A line comment stops before the end of its line. -/
theorem comment?_showsBreaks {rest : List Char} {l : Lexeme} (h : comment? rest = some l) :
    l.ShowsBreaks ('/' :: rest) := by
  intro _
  unfold comment? at h
  split at h
  · rename_i tail
    cases h
    rw [List.take_succ_cons, List.take_succ_cons, lineCommentLength, take_runLength]
    refine (List.any_eq_false.mpr fun d hd hbreak => ?_).symm
    rcases List.mem_cons.mp hd with rfl | hd
    · cases hbreak
    rcases List.mem_cons.mp hd with rfl | hd
    · cases hbreak
    have hother := List.mem_takeWhile_imp hd
    rw [hbreak] at hother
    cases hother
  · cases h
    rfl
  · cases h

theorem number_isHidden (c : Char) (rest : List Char) : (number c rest).kind.isHidden = false := by
  rcases number_kind c rest with h | h | h <;> rw [h] <;> rfl

theorem mark_isHidden (c : Char) (rest : List Char) : (mark c rest).kind.isHidden = false := by
  rcases mark_kind c rest with h | h
  · rw [h]
    rfl
  · exact isHidden_of_text? (by simp [Kind.text?, h])

theorem word_isHidden [Alphabet] (c : Char) (rest : List Char) :
    (word c rest).kind.isHidden = false := by
  rcases word_kind c rest with h | h
  · rw [h]
    rfl
  · exact isHidden_of_text? (by simp [Kind.text?, h])

theorem xmlAttribute_isHidden [Alphabet] (rest : List Char) :
    (xmlAttribute rest).kind.isHidden = false := by
  rcases xmlAttribute_kind rest with h | h <;> rw [h] <;> rfl

theorem xmlText_isHidden (state : XmlState) (outer : List Mode) (c : Char) (rest : List Char) :
    (xmlText state outer c rest).1.kind.isHidden = false := by
  rcases xmlText_kind state outer c rest with h | h <;> rw [h] <;> rfl

theorem Reads.showsBreaks [Alphabet] {c : Char} {rest : List Char} {l : Lexeme}
    (h : Reads c rest l) :
    l.ShowsBreaks (c :: rest) := by
  cases h with
  | lineEnd hc =>
    intro _
    dsimp only
    split <;> rw [List.take_succ_cons, List.any_cons, hc] <;> rfl
  | blank hc => exact blank_showsBreaks hc rest
  | string | regExp => exact showsBreaks_of_isHidden rfl
  | xmlAttribute => exact showsBreaks_of_isHidden (xmlAttribute_isHidden rest)
  | number => exact showsBreaks_of_isHidden (number_isHidden c rest)
  | word => exact showsBreaks_of_isHidden (word_isHidden c rest)
  | comment hc h =>
    subst hc
    exact comment?_showsBreaks h
  | mark => exact showsBreaks_of_isHidden (mark_isHidden c rest)

theorem next_showsBreaks [Alphabet] (xmlLiterals afterOperand : Bool) (modes : List Mode) (c : Char)
    (rest : List Char) :
    (next xmlLiterals afterOperand modes c rest).1.ShowsBreaks (c :: rest) := by
  rcases next_cases xmlLiterals afterOperand modes c rest with hreads | ⟨state, outer, -, htext⟩
  · exact hreads.showsBreaks
  · rw [htext]
    exact showsBreaks_of_isHidden (xmlText_isHidden state outer c rest)

end Lexeme

/-- A line ends inside the token. -/
def Token.endsLine (t : Token) : Bool := t.text.toList.any CharClass.isLineBreak

/-- A line has ended since the last significant token of a list. -/
def brokenSince (tokens : List Token) : Bool :=
  (tokens.reverse.takeWhile (·.isHidden)).any Token.endsLine

theorem brokenSince_concat (tokens : List Token) (t : Token) :
    brokenSince (tokens ++ [t]) = (t.isHidden && (t.endsLine || brokenSince tokens)) := by
  rw [brokenSince, List.reverse_concat, List.takeWhile_cons]
  cases t.isHidden <;> rfl

/-- Only the hidden tokens at the end count. -/
theorem brokenSince_append {before after : List Token} (hafter : ∀ t ∈ after, t.isHidden = true)
    (hbefore : ∀ t, before.getLast? = some t → t.isHidden = false) :
    brokenSince (before ++ after) = after.any Token.endsLine := by
  have hnone : before.reverse.takeWhile (·.isHidden) = [] := by
    cases before using List.reverseRecOn with
    | nil => rfl
    | append_singleton before t =>
      rw [List.reverse_concat, List.takeWhile_cons, hbefore t (by simp)]
      rfl
  rw [brokenSince, List.reverse_append, List.takeWhile_append_of_pos (by simpa using hafter), hnone,
    List.append_nil, List.any_reverse]

/-- The tokens from place `k` up to place `i` are hidden. Before them there is a significant token,
or nothing. -/
structure HiddenRun (tokens : Array Token) (k i : Nat) : Prop where
  le : k ≤ i
  hidden : ∀ j t, k ≤ j → j < i → tokens[j]? = some t → t.isHidden = true
  before : ∀ j t, j + 1 = k → tokens[j]? = some t → t.isHidden = false

/-- Only the hidden tokens right before a place count. -/
theorem HiddenRun.brokenSince {tokens : Array Token} {k i : Nat} (h : HiddenRun tokens k i)
    (hi : i ≤ tokens.size) : brokenSince (tokens.toList.take i) =
      ((tokens.toList.take i).drop k).any Token.endsLine := by
  have hsplit : tokens.toList.take i =
      tokens.toList.take k ++ (tokens.toList.take i).drop k := by
    conv_lhs => rw [← List.take_append_drop k (tokens.toList.take i)]
    rw [List.take_take, Nat.min_eq_left h.le]
  rw [hsplit, brokenSince_append, ← hsplit]
  · intro t ht
    obtain ⟨l, hl⟩ := List.mem_iff_getElem?.mp ht
    rw [List.getElem?_drop, List.getElem?_take] at hl
    split at hl
    · exact h.hidden (k + l) t (Nat.le_add_right k l) (by assumption) (by simpa using hl)
    · cases hl
  · intro t ht
    cases k with
    | zero => simp at ht
    | succ j =>
      have hj : j < tokens.size := Nat.lt_of_lt_of_le h.le hi
      have hlast : tokens[j]? = some t := by
        simpa [List.getLast?_take, hj] using ht
      exact h.before j t rfl hlast

namespace Scan

/-- The scan knows whether a line has ended since the last significant token, and so does every
significant token of that before it. -/
structure Flagged (s : Scan) : Prop where
  broken : s.lineBroken = brokenSince s.tokens.toList
  flags : ∀ (i : Nat) (t : Token), s.tokens[i]? = some t → t.isHidden = false →
    t.lineBreakBefore = brokenSince (s.tokens.toList.take i)

theorem push_lineBroken (s : Scan) (l : Lexeme) (text : List Char) :
    (s.push l text).lineBroken =
      (l.kind.isHidden && (s.lineBroken || breaksLine l.kind text)) := by
  unfold push
  dsimp only
  split <;> rfl

theorem Flagged.push {s : Scan} {l : Lexeme} {text : List Char} (h : s.Flagged)
    (hshows : l.ShowsBreaks text) : (s.push l (text.take l.size)).Flagged := by
  constructor
  · rw [push_lineBroken, push_tokens, Array.toList_push, brokenSince_concat, ← h.broken,
      Token.isHidden, Token.endsLine, tokenOf, String.toList_ofList]
    cases hhidden : l.kind.isHidden with
    | false => rfl
    | true => rw [hshows hhidden, Bool.or_comm]
  · rw [push_tokens]
    apply forall_push (P := fun before t => t.isHidden = false →
      t.lineBreakBefore = brokenSince before) h.flags
    intro hsignificant
    have hsignificant : l.kind.isHidden = false := hsignificant
    simp [tokenOf, hsignificant, h.broken]

theorem Flagged.take [Alphabet] (xmlLiterals : Bool) {s : Scan} (h : s.Flagged) (c : Char)
    (rest : List Char) : (Scan.take xmlLiterals s c rest).1.Flagged := by
  have hpush := h.push (Lexeme.next_showsBreaks xmlLiterals s.afterOperand s.modes c rest)
  exact ⟨hpush.broken, hpush.flags⟩

end Scan

theorem tokenize_flags [Alphabet] {text : String} {xmlLiterals : Bool} {i : Nat} {t : Token}
    (h : (tokenize text xmlLiterals).tokens[i]? = some t) (hhidden : t.isHidden = false) :
    t.lineBreakBefore = brokenSince ((tokenize text xmlLiterals).tokens.toList.take i) := by
  have hrun : (cut (Scan.take xmlLiterals) Scan.pass 0 text.toList {}).Flagged := by
    apply cut_preserves (P := fun _ (s : Scan) => s.Flagged)
    · intro s c rest hs
      have hs := hs.take xmlLiterals c rest
      exact ⟨hs.broken, hs.flags⟩
    · intro s c rest hs
      exact ⟨hs.broken, hs.flags⟩
    · refine ⟨rfl, fun j u hu => ?_⟩
      simp at hu
  rw [tokenize_tokens] at h ⊢
  exact hrun.flags i t h hhidden

/-- In range `r` of `source` a line ends, or none does. -/
def Range.Breaks (source : String) (r : Range) (broken : Bool) : Prop :=
  ∃ text, r.Reads source text ∧ text.toList.any CharClass.isLineBreak = broken

theorem Range.Breaks.unique {source : String} {r : Range} {a b : Bool} (h : r.Breaks source a)
    (h' : r.Breaks source b) : a = b := by
  obtain ⟨text, hreads, rfl⟩ := h
  obtain ⟨text', hreads', rfl⟩ := h'
  rw [hreads.unique hreads']

namespace Input
variable {input : Input} {tokens : Array Token}

/-- Between two significant tokens that follow each other all are hidden. -/
theorem Over.hiddenRun (hover : input.Over tokens) {p : Nat} (hp : p < input.significant.size) :
    HiddenRun tokens (input.afterAt p) (input.indexAt p) where
  le := hover.afterAt_le_indexAt p
  hidden := by
    intro i t hlow hhigh ht
    by_contra hsignificant
    obtain ⟨j, hj, hindex, -⟩ := hover.sees_of_token ht (Bool.eq_false_iff.mpr hsignificant)
    have hge := hover.rank_ge_of_afterAt_le (p := p) (j := j) (Nat.le_of_lt hp) (by omega)
    have hlt := hover.rank_lt_of_indexAt_lt (p := j) (q := p) (by omega)
    omega
  before := by
    intro i t hi ht
    cases p with
    | zero => simp at hi
    | succ r =>
      have hr : r < input.significant.size := Nat.lt_of_succ_lt hp
      rw [afterAt_succ hr] at hi
      obtain rfl : i = input.indexAt r := by omega
      obtain ⟨u, hu, -, hhidden, -⟩ := hover.token_of_sees (sees_kindAt_of_lt hr)
      obtain rfl : u = t := Option.some.inj (hu.symm.trans ht)
      exact hhidden

/-- The flag of a token tells whether a line ends in the text before it. -/
theorem Over.breaks_brokenAt {source : String} (hover : input.Over tokens)
    (hfaithful : Faithful source tokens)
    (hflags : ∀ (i : Nat) (t : Token), tokens[i]? = some t → t.isHidden = false →
      t.lineBreakBefore = brokenSince (tokens.toList.take i))
    {p : Nat} (hp : p < input.significant.size) :
    Range.Breaks source ⟨input.stopAt tokens p, input.startAt tokens p⟩ (input.brokenAt p) := by
  refine ⟨_, hfaithful.reads_between (hover.afterAt_le_indexAt p), ?_⟩
  have hx := Array.getElem?_eq_getElem hp
  have hindex : input.indexAt p = (input.significant[p]).index := by simp [indexAt, hp]
  obtain ⟨htoken, hhidden⟩ := hover.placed hx
  rw [← hindex] at htoken
  have hflag := hflags _ _ htoken hhidden
  rw [(hover.hiddenRun hp).brokenSince (hover.count_eq ▸ hover.indexAt_le_count p)] at hflag
  rw [String.toList_ofList, List.any_flatMap, brokenAt, hx, Option.any_some, hflag]
  rfl

end Input
end ScriptTree
