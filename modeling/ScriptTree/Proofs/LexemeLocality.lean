import ScriptTree.Proofs.DelimitedTokens
import ScriptTree.Proofs.ModeStack

/-!
How far a lexeme looks. Some readers look at characters that they do not take in, but none of them
looks beyond a point or a colon. So a lexeme that ends before such a mark is read alike whatever
stands after the mark.
-/
namespace ScriptTree
open CharClass

/-! Runs and marks in a text. -/

/-- A run that ends before a character does not depend on what stands after that character, nor on
the character as far as its class is the same. -/
theorem runLength_local {q : Char → Bool} {p v : List Char} {d d' : Char} (hclass : q d' = q d)
    (h : runLength q (p ++ d :: v) ≤ p.length) (v' : List Char) :
    runLength q (p ++ d' :: v') = runLength q (p ++ d :: v) := by
  unfold runLength at h ⊢
  induction p with
  | nil =>
    cases hd : q d with
    | true => simp [hd] at h
    | false => simp [hclass, hd]
  | cons c p ih =>
    rw [List.cons_append, List.cons_append, List.takeWhile_cons, List.takeWhile_cons] at *
    cases hc : q c with
    | true => simpa [hc] using ih (by simpa [hc] using h)
    | false => rfl

/-- A run ends at a character outside its class. -/
theorem runLength_stops {q : Char → Bool} {d : Char} (h : q d = false) (p v : List Char) :
    runLength q (p ++ d :: v) = runLength q p := by
  unfold runLength
  rw [List.takeWhile_append]
  split
  · rename_i hall
    simp [h, hall]
  · rfl

theorem head?_append_cons (p v v' : List Char) (d : Char) :
    (p ++ d :: v').head? = (p ++ d :: v).head? := by
  cases p <;> rfl

theorem length_le_of_lengthThrough? {mark text : List Char} {n : Nat}
    (h : lengthThrough? mark text = some n) : mark.length ≤ n := by
  induction text generalizing n with
  | nil => cases h
  | cons c rest ih =>
    rw [lengthThrough?] at h
    split at h
    · exact Nat.le_of_eq (Option.some.inj h)
    · obtain ⟨m, hm, rfl⟩ := Option.map_eq_some_iff.mp h
      exact Nat.le_succ_of_le (ih hm)

/-- A mark is found in the text in which it ends. -/
theorem lengthThrough?_local {mark p s : List Char} {n : Nat} (hmark : mark ≠ [])
    (h : lengthThrough? mark (p ++ s) = some n) (hn : n ≤ p.length) (s' : List Char) :
    lengthThrough? mark (p ++ s') = some n := by
  induction p generalizing n with
  | nil =>
    have hpos := length_le_of_lengthThrough? h
    have := List.length_pos_iff.mpr hmark
    rw [List.length_nil] at hn
    omega
  | cons c p ih =>
    have hbegins (s : List Char) (hle : mark.length ≤ (c :: p).length) :
        mark.isPrefixOf (c :: (p ++ s)) = mark.isPrefixOf (c :: p) := by
      rw [Bool.eq_iff_iff, List.isPrefixOf_iff_prefix, List.isPrefixOf_iff_prefix]
      refine ⟨fun h => ?_, fun h => h.trans (List.prefix_append (c :: p) s)⟩
      exact List.prefix_of_prefix_length_le h (List.prefix_append (c :: p) s) hle
    have hle : mark.length ≤ (c :: p).length := Nat.le_trans (length_le_of_lengthThrough? h) hn
    rw [List.cons_append, lengthThrough?, hbegins _ hle] at h ⊢
    split at h
    · rename_i hhere
      rw [if_pos hhere]
      exact h
    · rename_i hhere
      obtain ⟨m, hm, rfl⟩ := Option.map_eq_some_iff.mp h
      rw [if_neg hhere, ih hm (Nat.le_of_succ_le_succ hn)]
      rfl

/-- What stands at the front of a text ends before a character that it does not have. -/
theorem length_le_of_begins {m p v : List Char} {d : Char} (h : m <+: p ++ d :: v) (hd : d ∉ m) :
    m.length ≤ p.length := by
  rcases List.prefix_or_prefix_of_prefix h (List.prefix_append p (d :: v)) with hshort | ⟨tail, rfl⟩
  · exact hshort.length_le
  · cases tail with
    | nil => simp
    | cons c tail =>
      obtain ⟨rfl, -⟩ := List.cons_prefix_cons.mp ((List.prefix_append_right_inj p).mp h)
      exact absurd (by simp) hd

/-- A text that does not go beyond a character, or does not have it, is found before it. -/
theorem isPrefixOf_local {m p : List Char} {d : Char} (h : m.length ≤ p.length + 1 ∨ d ∉ m)
    (v v' : List Char) : m.isPrefixOf (p ++ d :: v') = m.isPrefixOf (p ++ d :: v) := by
  have hupto (v : List Char) : p ++ [d] <+: p ++ d :: v := ⟨v, by simp⟩
  have hother (v v' : List Char) (hm : m <+: p ++ d :: v) : m <+: p ++ d :: v' := by
    have hlength : m.length ≤ (p ++ [d]).length := by
      rw [List.length_append, List.length_singleton]
      exact h.elim id fun hnot => Nat.le_succ_of_le (length_le_of_begins hm hnot)
    exact (List.prefix_of_prefix_length_le hm (hupto v) hlength).trans (hupto v')
  rw [Bool.eq_iff_iff, List.isPrefixOf_iff_prefix, List.isPrefixOf_iff_prefix]
  exact ⟨hother v' v, hother v v'⟩

/-! XML text. -/

/-- How many characters a step of XML text takes in after its first. -/
def XmlStep.more : XmlStep → Nat
  | .embed => 0
  | .finish more => more
  | .proceed more _ => more

namespace XmlState

theorem more_proceedOrFinish (s : XmlState) (n : Nat) : (s.proceedOrFinish n).more = n := by
  unfold proceedOrFinish
  split <;> rfl

/-- What opens a section of XML text. -/
theorem section?_eq_some {text mark : List Char} {opening : Nat}
    (h : section? text = some (opening, mark)) : mark ≠ [] ∧
      ∃ front ∈ ["<!--".toList, "<![CDATA[".toList, "<?".toList],
        front <+: text ∧ front.length = opening := by
  unfold section? at h
  split at h
  · rename_i hfront
    cases h
    exact ⟨by decide, _, by simp, List.isPrefixOf_iff_prefix.mp hfront, rfl⟩
  split at h
  · rename_i hfront
    cases h
    exact ⟨by decide, _, by simp, List.isPrefixOf_iff_prefix.mp hfront, rfl⟩
  split at h
  · rename_i hfront
    cases h
    exact ⟨by decide, _, by simp, List.isPrefixOf_iff_prefix.mp hfront, rfl⟩
  · cases h

/-- A stretch takes in all that it passes over, as far as the text goes. -/
theorem skip_le_stretch (skip : Nat) (s : XmlState) (text : List Char) :
    min skip text.length ≤ (stretch skip s text).1 := by
  induction text generalizing skip with
  | nil => simp
  | cons c rest ih =>
    cases skip with
    | zero => simp
    | succ skip =>
      have := ih skip
      simp only [stretch, List.length_cons]
      omega

section
variable {d : Char} (hd : d = '.' ∨ d = ':')
include hd

theorem section?_stops (c : Char) (p v v' : List Char) :
    XmlState.section? (c :: (p ++ d :: v')) = XmlState.section? (c :: (p ++ d :: v)) := by
  have hfront (front : List Char) (h : d ∉ front) :
      front.isPrefixOf (c :: (p ++ d :: v')) = front.isPrefixOf (c :: (p ++ d :: v)) :=
    isPrefixOf_local (p := c :: p) (.inr h) v v'
  unfold section? Operator.startsWith
  rw [hfront _ (by rcases hd with rfl | rfl <;> decide),
    hfront _ (by rcases hd with rfl | rfl <;> decide),
    hfront _ (by rcases hd with rfl | rfl <;> decide)]

theorem bracketStep_local {s : XmlState} {p v : List Char}
    (h : (s.bracketStep (p ++ d :: v)).more ≤ p.length) (v' : List Char) :
    s.bracketStep (p ++ d :: v') = s.bracketStep (p ++ d :: v) := by
  have hfree : ∀ front ∈ ["<!--".toList, "<![CDATA[".toList, "<?".toList], d ∉ front := by
    rcases hd with rfl | rfl <;> decide
  unfold bracketStep at h ⊢
  rw [section?_stops hd '<' p v v', head?_append_cons p v v']
  cases hsection : section? ('<' :: (p ++ d :: v)) with
  | none => rfl
  | some x =>
    obtain ⟨opening, mark⟩ := x
    obtain ⟨hmark, front, hfront, hbegins, rfl⟩ := section?_eq_some hsection
    have hle : front.length - 1 ≤ p.length :=
      Nat.sub_le_of_le_add (length_le_of_begins (p := '<' :: p) hbegins (hfree front hfront))
    rw [hsection] at h
    dsimp only at h ⊢
    rw [List.drop_append_of_le_length hle] at h ⊢
    rw [List.drop_append_of_le_length hle]
    cases hfound : lengthThrough? mark (p.drop (front.length - 1) ++ d :: v) with
    | none =>
      rw [hfound] at h
      have h : (p ++ d :: v).length ≤ p.length := h
      rw [List.length_append, List.length_cons] at h
      omega
    | some n =>
      rw [hfound] at h
      dsimp only at h
      rw [more_proceedOrFinish] at h
      have hn : n ≤ (p.drop (front.length - 1)).length := by
        rw [List.length_drop]
        omega
      rw [lengthThrough?_local hmark hfound hn]

theorem step_local {s : XmlState} {c : Char} {p v : List Char}
    (h : (s.step c (p ++ d :: v)).more ≤ p.length) (v' : List Char) :
    s.step c (p ++ d :: v') = s.step c (p ++ d :: v) := by
  unfold step at h ⊢
  split
  · rfl
  rename_i hquote
  rw [hquote] at h
  dsimp only at h
  split
  · rfl
  rename_i hbrace
  rw [if_neg hbrace] at h
  split
  · rw [tagStep, tagStep, head?_append_cons p v v']
  rename_i htag
  rw [if_neg htag] at h
  split
  · rename_i hbracket
    rw [if_pos hbracket] at h
    exact bracketStep_local hd h v'
  · rfl

theorem stretch_local {skip : Nat} {s : XmlState} {p v : List Char}
    (h : (stretch skip s (p ++ d :: v)).1 ≤ p.length) (v' : List Char) :
    stretch skip s (p ++ d :: v') = stretch skip s (p ++ d :: v) := by
  induction p generalizing skip s with
  | nil =>
    -- The mark itself is taken in, since it embeds no expression.
    have hpos : 0 < (stretch skip s (d :: v)).1 := by
      cases skip with
      | succ skip => exact Nat.succ_pos _
      | zero =>
        rw [stretch]
        split
        · rename_i hembed
          rcases hd with rfl | rfl <;> cases (quote_of_step hembed).2
        · exact Nat.succ_pos _
        · exact Nat.succ_pos _
    exact absurd h (Nat.not_le_of_lt hpos)
  | cons c p ih =>
    simp only [List.cons_append, List.length_cons] at h ⊢
    cases skip with
    | succ skip =>
      simp only [stretch] at h ⊢
      rw [ih (Nat.le_of_succ_le_succ h)]
    | zero =>
      have hmore : (s.step c (p ++ d :: v)).more ≤ p.length := by
        rw [stretch] at h
        split at h
        · rename_i hstep
          rw [hstep]
          exact Nat.zero_le _
        · rename_i hstep
          rw [hstep]
          exact Nat.le_of_succ_le_succ h
        · rename_i more s' hstep
          have hskip := skip_le_stretch more s' (p ++ d :: v)
          rw [List.length_append, List.length_cons] at hskip
          rw [hstep]
          dsimp only at h
          simp only [XmlStep.more]
          omega
      rw [stretch, stretch, step_local hd hmore v']
      rw [stretch] at h
      split at h
      · rfl
      · rfl
      · rw [ih (Nat.le_of_succ_le_succ h)]

end
end XmlState

namespace Lexeme

theorem stringExtent_cons {c : Char} (quote : Char) (rest : List Char) (h : c ≠ '\\') :
    stringExtent quote (c :: rest) =
      if c == quote then ⟨1, true⟩
      else if isLineBreak c then ⟨0, false⟩
      else (stringExtent quote rest).after 1 :=
  stringExtent.eq_4 _ _ _ (fun _ hc _ => h hc) (fun _ _ hc _ => h hc)

theorem comment?_local {p v : List Char} {d d' : Char} {l : Lexeme}
    (hbreak : isLineBreak d' = isLineBreak d) (hd : d ≠ '/' ∧ d ≠ '*')
    (h : comment? (p ++ d :: v) = some l) (hsize : l.more ≤ p.length) (v' : List Char) :
    comment? (p ++ d' :: v') = some l := by
  cases p with
  | nil => simp [comment?, hd] at h
  | cons c p =>
    simp only [List.cons_append] at h ⊢
    unfold comment? at h ⊢
    split at h
    · rename_i hc
      obtain ⟨rfl, rfl⟩ := List.cons.inj hc
      cases h
      have hrun := runLength_local (q := fun c => !isLineBreak c) (by rw [hbreak])
        (Nat.le_of_succ_le_succ hsize) v'
      simp only [lineCommentLength, hrun]
    · rename_i hc
      obtain ⟨rfl, rfl⟩ := List.cons.inj hc
      unfold blockCommentExtent at h ⊢
      split at h
      · rename_i n hn
        cases h
        have hn := lengthThrough?_local (by decide) hn (Nat.le_of_succ_le_succ hsize) (d' :: v')
        simp only [hn]
      · cases h
        have hsize : (p ++ d :: v).length + 1 ≤ p.length + 1 := hsize
        rw [List.length_append, List.length_cons] at hsize
        omega
    · cases h

section
variable {d : Char} (hd : d = '.' ∨ d = ':')
include hd

/-! Words and numbers. -/

theorem wordLength_stops [Alphabet] (p v : List Char) :
    wordLength (p ++ d :: v) = wordLength p := by
  have hpart : isIdentifierPart d = false := by rcases hd with rfl | rfl <;> rfl
  have hescape {c : Char} {rest : List Char}
      (h : ∀ tail, c = '\\' → rest = 'u' :: tail → False) :
      ∀ tail, c = '\\' → rest ++ d :: v = 'u' :: tail → False := by
    intro tail hc htail
    cases rest with
    | nil =>
      obtain ⟨rfl, -⟩ := List.cons.inj htail
      rcases hd with hd | hd <;> cases hd
    | cons x rest =>
      obtain ⟨rfl, -⟩ := List.cons.inj htail
      exact h rest hc rfl
  fun_induction wordLength p with
  | case1 rest ih => simp [wordLength, ih]
  | case2 c rest hnot hc ih =>
    rw [List.cons_append, wordLength.eq_2 _ _ (hescape hnot), if_pos hc, ih]
  | case3 c rest hnot hc =>
    rw [List.cons_append, wordLength.eq_2 _ _ (hescape hnot), if_neg hc]
  | case4 => rcases hd with rfl | rfl <;> rfl

theorem word_stops [Alphabet] (c : Char) (p v v' : List Char) :
    word c (p ++ d :: v') = word c (p ++ d :: v) := by
  have hword (v : List Char) : wordLength (c :: (p ++ d :: v)) = wordLength (c :: p) :=
    wordLength_stops hd (c :: p) v
  have htake (v : List Char) : (c :: (p ++ d :: v)).take (wordLength (c :: p)) =
      (c :: p).take (wordLength (c :: p)) :=
    List.take_append_of_le_length (wordLength_le (c :: p))
  unfold word
  simp only [hword, htake]

theorem fractionLength_local {p v : List Char} (h : fractionLength (p ++ d :: v) ≤ p.length)
    (v' : List Char) : fractionLength (p ++ d :: v') = fractionLength (p ++ d :: v) := by
  have hdigit : isDigit d = false := by rcases hd with rfl | rfl <;> rfl
  cases p with
  | nil =>
    rcases hd with rfl | rfl
    · simp [fractionLength] at h
    · rfl
  | cons c p =>
    by_cases hc : c = '.'
    · subst hc
      simp [fractionLength, runLength_stops hdigit]
    · simp [fractionLength, hc]

theorem exponentLength_stops (p v : List Char) :
    exponentLength (p ++ d :: v) = exponentLength p := by
  have hdigit : isDigit d = false := by rcases hd with rfl | rfl <;> rfl
  have hsign : (d == '+' || d == '-') = false := by rcases hd with rfl | rfl <;> rfl
  cases p with
  | nil => rcases hd with rfl | rfl <;> rfl
  | cons e p =>
    have hdigits (n : Nat) (hn : n ≤ p.length) :
        runLength isDigit ((p ++ d :: v).drop n) = runLength isDigit (p.drop n) := by
      rw [List.drop_append_of_le_length hn, runLength_stops hdigit]
    unfold exponentLength
    rw [List.cons_append]
    dsimp only
    cases p with
    | nil =>
      simp only [List.nil_append, hsign, Bool.false_eq_true, if_false, ← hdigits 0 (Nat.le_refl 0)]
    | cons c p =>
      have hafter := hdigits (if c == '+' || c == '-' then 1 else 0) (by split <;> simp)
      rw [List.cons_append] at hafter ⊢
      simp only [hafter]

theorem decimalLength_local {p v : List Char} (h : decimalLength (p ++ d :: v) ≤ p.length)
    (v' : List Char) : decimalLength (p ++ d :: v') = decimalLength (p ++ d :: v) := by
  have hdigit : isDigit d = false := by rcases hd with rfl | rfl <;> rfl
  have hwhole := runLength_le isDigit p
  unfold decimalLength at h ⊢
  dsimp only at h ⊢
  rw [runLength_stops hdigit, List.drop_append_of_le_length hwhole] at h ⊢
  rw [runLength_stops hdigit, List.drop_append_of_le_length hwhole]
  have hfraction := fractionLength_local hd (p := p.drop (runLength isDigit p)) (v := v)
    (by rw [List.length_drop]; omega) v'
  rw [hfraction]
  rw [List.drop_append_of_le_length (by omega), exponentLength_stops hd] at h ⊢
  rw [List.drop_append_of_le_length (by omega), exponentLength_stops hd]

theorem number_local {c : Char} {p v : List Char} (h : (number c (p ++ d :: v)).more ≤ p.length)
    (v' : List Char) : number c (p ++ d :: v') = number c (p ++ d :: v) := by
  have hoctal : isOctalDigit d = false := by rcases hd with rfl | rfl <;> rfl
  have hhex : isHexDigit d = false := by rcases hd with rfl | rfl <;> rfl
  have hx : (d == 'x' || d == 'X') = false := by rcases hd with rfl | rfl <;> rfl
  have hdecimal (h : decimalLength (c :: (p ++ d :: v)) - 1 ≤ p.length) :
      decimalLength (c :: (p ++ d :: v')) = decimalLength (c :: (p ++ d :: v)) :=
    decimalLength_local hd (p := c :: p) (Nat.le_add_of_sub_le h) v'
  unfold number at h ⊢
  dsimp only at h ⊢
  split
  · rename_i hzero
    rw [if_pos hzero] at h
    cases p with
    | nil =>
      have hnone (v : List Char) : runLength isOctalDigit (d :: v) = 0 :=
        runLength_stops hoctal [] v
      simp only [List.nil_append, hx, hnone, beq_self_eq_true, Bool.true_or, if_true,
        Bool.false_eq_true, if_false] at h hdecimal ⊢
      rw [hdecimal h]
    | cons x p =>
      simp only [List.cons_append] at h hdecimal ⊢
      split
      · rw [runLength_stops hhex, runLength_stops hhex]
      · rename_i hx
        have hoctals (v : List Char) :
            runLength isOctalDigit (x :: (p ++ d :: v)) = runLength isOctalDigit (x :: p) :=
          runLength_stops hoctal (x :: p) v
        have hdrop (v : List Char) :
            (x :: (p ++ d :: v)).drop (runLength isOctalDigit (x :: p)) =
              (x :: p).drop (runLength isOctalDigit (x :: p)) ++ d :: v :=
          List.drop_append_of_le_length (runLength_le isOctalDigit (x :: p))
        simp only [if_neg hx, hoctals, hdrop, head?_append_cons _ v v'] at h ⊢
        split
        · rename_i hturns
          rw [if_pos hturns] at h
          rw [hdecimal h]
        · rfl
  · rename_i hzero
    rw [if_neg hzero] at h
    rw [hdecimal h]

/-! Lexemes between delimiters. -/

theorem stringExtent_local {quote : Char} (hquote : quote = '"' ∨ quote = '\'') {p v : List Char}
    (h : (stringExtent quote (p ++ d :: v)).length ≤ p.length) (v' : List Char) :
    stringExtent quote (p ++ d :: v') = stringExtent quote (p ++ d :: v) := by
  have hline (v : List Char) : ∀ tail, d :: v = '\n' :: tail → False := by
    intro tail htail
    obtain ⟨rfl, -⟩ := List.cons.inj htail
    rcases hd with hd | hd <;> cases hd
  -- A backslash right before the mark takes it in.
  have hplain {c : Char} {rest : List Char}
      (hescape : ∀ x tail, c = '\\' → rest = x :: tail → False)
      (h : (stringExtent quote (c :: rest ++ d :: v)).length ≤ (c :: rest).length) : c ≠ '\\' := by
    rintro rfl
    cases rest with
    | nil =>
      have hreturn : ∀ tail, d = '\r' → v = '\n' :: tail → False := by
        rintro tail rfl -
        rcases hd with hd | hd <;> cases hd
      rw [List.cons_append, List.nil_append, stringExtent.eq_3 _ _ _ hreturn] at h
      simp at h
    | cons x rest => exact hescape x rest rfl rfl
  fun_induction stringExtent quote p with
  | case1 =>
    rcases hd with rfl | rfl <;> rcases hquote with rfl | rfl <;>
      simp [stringExtent, isLineBreak] at h
  | case2 rest ih =>
    simp only [List.cons_append, stringExtent] at h ⊢
    rw [ih (by simpa using h)]
  | case3 c rest hnot ih =>
    have hnot (v : List Char) : ∀ tail, c = '\r' → rest ++ d :: v = '\n' :: tail → False := by
      intro tail hc htail
      cases rest with
      | nil => exact hline v tail htail
      | cons x rest =>
        obtain ⟨rfl, -⟩ := List.cons.inj htail
        exact hnot rest hc rfl
    simp only [List.cons_append] at h ⊢
    rw [stringExtent.eq_3 _ _ _ (hnot v)] at h ⊢
    rw [stringExtent.eq_3 _ _ _ (hnot v'), ih (by simpa using h)]
  | case4 c rest _ hescape hc =>
    have hc' := hplain hescape h
    rw [List.cons_append, List.cons_append, stringExtent_cons _ _ hc', stringExtent_cons _ _ hc',
      if_pos hc, if_pos hc]
  | case5 c rest _ hescape hc hbreak =>
    have hc' := hplain hescape h
    rw [List.cons_append, List.cons_append, stringExtent_cons _ _ hc', stringExtent_cons _ _ hc',
      if_neg hc, if_pos hbreak, if_neg hc, if_pos hbreak]
  | case6 c rest _ hescape hc hbreak ih =>
    have hc' := hplain hescape h
    rw [List.cons_append, stringExtent_cons _ _ hc', if_neg hc, if_neg hbreak] at h ⊢
    rw [List.cons_append, stringExtent_cons _ _ hc', if_neg hc, if_neg hbreak,
      ih (by simpa using h)]

theorem regExpExtent_local [Alphabet] {inClass : Bool} {p v : List Char}
    (h : (regExpExtent inClass (p ++ d :: v)).length ≤ p.length) (v' : List Char) :
    regExpExtent inClass (p ++ d :: v') = regExpExtent inClass (p ++ d :: v) := by
  have hpart : isIdentifierPart d = false := by rcases hd with rfl | rfl <;> rfl
  have hmark : isLineBreak d = false ∧ d ≠ '\\' ∧ d ≠ '/' := by rcases hd with rfl | rfl <;> decide
  fun_induction regExpExtent inClass p with
  | case1 inClass =>
    rw [List.nil_append, regExpExtent_cons _ _ hmark.2.1 hmark.1
      (fun hslash => absurd hslash hmark.2.2)] at h
    simp at h
  | case2 inClass c rest hbreak =>
    simp only [List.cons_append]
    unfold regExpExtent
    rw [if_pos hbreak, if_pos hbreak]
  | case3 inClass c hbreak hbackslash =>
    obtain rfl : c = '\\' := by simpa using hbackslash
    rw [List.cons_append, List.nil_append, regExpExtent_escape _ _ hmark.1] at h
    simp at h
  | case4 inClass c hbreak hbackslash x rest hline => simp [regExpExtent, hbackslash, hline]
  | case5 inClass c hbreak hbackslash x rest hline ih =>
    obtain rfl : c = '\\' := by simpa using hbackslash
    have hline : isLineBreak x = false := by simpa using hline
    simp only [List.cons_append, regExpExtent_escape _ _ hline] at h ⊢
    rw [ih (by simpa using h)]
  | case6 inClass c rest hbreak hbackslash hslash =>
    simp only [List.cons_append]
    unfold regExpExtent
    simp only [if_neg hbreak, if_neg hbackslash, if_pos hslash, runLength_stops hpart]
  | case7 inClass c rest hbreak hbackslash hslash ih =>
    have hopen : c = '/' → inClass = true := by
      rintro rfl
      simpa using hslash
    have hstep (v : List Char) := regExpExtent_cons c (rest ++ d :: v)
      (by simpa using hbackslash) (by simpa using hbreak) hopen
    rw [List.cons_append, hstep] at h ⊢
    rw [List.cons_append, hstep, ih (by simpa using h)]

/-! Marks. -/

/-- No punctuation mark goes on after a point or a colon, but for the two that repeat it. -/
theorem punctuationText?_short_or (k : Kind) :
    (k.punctuationText?.getD "").toList.length ≤ 2 ∨ d ∉ (k.punctuationText?.getD "").toList := by
  rcases hd with rfl | rfl <;> cases k <;> decide

theorem mark_stops (c : Char) (p v v' : List Char) :
    mark c (p ++ d :: v') = mark c (p ++ d :: v) := by
  have hsame : Operator.read? c (c :: (p ++ d :: v')) = Operator.read? c (c :: (p ++ d :: v)) := by
    apply Operator.read?_congr
    intro k mark hmark
    have hshort := punctuationText?_short_or hd k
    rw [hmark, Option.getD_some] at hshort
    rw [← List.isPrefixOf_iff_prefix, ← List.isPrefixOf_iff_prefix, ← Bool.eq_iff_iff]
    refine isPrefixOf_local (p := c :: p) (hshort.imp_left fun hle => ?_) v v'
    exact Nat.le_trans hle (Nat.le_add_left 2 p.length)
  rw [mark, mark, hsame]

theorem xmlAttribute_stops [Alphabet] (p v v' : List Char) :
    xmlAttribute (p ++ d :: v') = xmlAttribute (p ++ d :: v) := by
  have hstart : d ≠ '*' ∧ isIdentifierStart d = false := by
    rcases hd with rfl | rfl <;> exact ⟨by decide, rfl⟩
  cases p with
  | nil => simp [xmlAttribute, hstart]
  | cons c p =>
    have hword (v : List Char) : wordLength (c :: (p ++ d :: v)) = wordLength (c :: p) :=
      wordLength_stops hd (c :: p) v
    by_cases hc : c = '*'
    · simp [xmlAttribute, hc]
    · simp [xmlAttribute, hword]

theorem comment?_eq_none {p v : List Char} (h : comment? (p ++ d :: v) = none) (v' : List Char) :
    comment? (p ++ d :: v') = none := by
  cases p with
  | nil => rcases hd with rfl | rfl <;> rfl
  | cons c p =>
    simp only [List.cons_append] at h ⊢
    unfold comment? at h ⊢
    split at h
    · cases h
    · cases h
    · rename_i hslash hstar
      split
      · rename_i hc
        exact absurd (congrArg (· :: _) (List.cons.inj hc).1) (hslash _)
      · rename_i hc
        exact absurd (congrArg (· :: _) (List.cons.inj hc).1) (hstar _)
      · rfl

/-! The dispatch of the scan. -/

theorem slash_local [Alphabet] {operand : Bool} {p v : List Char}
    (h : (slash operand (p ++ d :: v)).more ≤ p.length) (v' : List Char) :
    slash operand (p ++ d :: v') = slash operand (p ++ d :: v) := by
  unfold slash at h ⊢
  cases hcomment : comment? (p ++ d :: v) with
  | some l =>
    rw [hcomment] at h
    rw [comment?_local rfl (by rcases hd with rfl | rfl <;> decide) hcomment h v']
  | none =>
    rw [hcomment] at h
    rw [comment?_eq_none hd hcomment v']
    dsimp only at h ⊢
    split
    · exact mark_stops hd '/' p v v'
    · rename_i hoperand
      rw [if_neg hoperand] at h
      unfold regExp at h ⊢
      rw [regExpExtent_local hd h v']

theorem plain_local [Alphabet] {operand : Bool} {c : Char} {p v : List Char}
    (h : (plain operand c (p ++ d :: v)).more ≤ p.length) (v' : List Char) :
    plain operand c (p ++ d :: v') = plain operand c (p ++ d :: v) := by
  have hblank : isBlank d = false := by rcases hd with rfl | rfl <;> rfl
  have hhead := head?_append_cons p v v' d
  have hstarts : startsWord c (p ++ d :: v') = startsWord c (p ++ d :: v) := by
    rw [startsWord, startsWord, hhead]
  unfold plain at h ⊢
  rw [hhead, hstarts]
  split
  · rfl
  rename_i hline
  rw [if_neg hline] at h
  split
  · rw [runLength_stops hblank, runLength_stops hblank]
  rename_i hspace
  rw [if_neg hspace] at h
  split
  · rename_i hquote
    rw [if_pos hquote] at h
    unfold string at h ⊢
    rw [stringExtent_local hd (by simpa using hquote) h v']
  rename_i hquote
  rw [if_neg hquote] at h
  split
  · exact xmlAttribute_stops hd p v v'
  rename_i hat
  rw [if_neg hat] at h
  split
  · rename_i hnumber
    rw [if_pos hnumber] at h
    exact number_local hd h v'
  rename_i hnumber
  rw [if_neg hnumber] at h
  split
  · exact word_stops hd c p v v'
  rename_i hword
  rw [if_neg hword] at h
  split
  · rename_i hslash
    rw [if_pos hslash] at h
    exact slash_local hd h v'
  · exact mark_stops hd c p v v'

theorem xmlText_local {state : XmlState} {outer : List Mode} {c : Char} {p v : List Char}
    (h : (xmlText state outer c (p ++ d :: v)).1.more ≤ p.length) (v' : List Char) :
    xmlText state outer c (p ++ d :: v') = xmlText state outer c (p ++ d :: v) := by
  have hstretch : (state.stretch 0 (c :: p ++ d :: v)).1 ≤ (c :: p).length := by
    rw [List.cons_append]
    unfold xmlText at h
    split at h
    all_goals
      rename_i hstretch
      rw [hstretch]
      exact Nat.le_add_of_sub_le h
  have hsame := XmlState.stretch_local hd hstretch v'
  unfold xmlText
  rw [← List.cons_append, ← List.cons_append, hsame]

theorem ordinary_local [Alphabet] {xmlLiterals operand : Bool} {modes : List Mode} {c : Char}
    {p v : List Char}
    (h : (ordinary xmlLiterals operand modes c (p ++ d :: v)).1.more ≤ p.length)
    (v' : List Char) : ordinary xmlLiterals operand modes c (p ++ d :: v') =
      ordinary xmlLiterals operand modes c (p ++ d :: v) := by
  have hstarts : startsXml (p ++ d :: v') = startsXml (p ++ d :: v) := by
    rw [startsXml, startsXml, head?_append_cons p v v']
  unfold ordinary at h ⊢
  rw [hstarts, mark_stops hd c p v v']
  split
  · rfl
  rename_i hopen
  rw [if_neg hopen] at h
  split
  · rfl
  rename_i hclose
  rw [if_neg hclose] at h
  split
  · rename_i hxml
    rw [if_pos hxml] at h
    exact xmlText_local hd h v'
  · rename_i hxml
    rw [if_neg hxml] at h
    rw [plain_local hd h v']

/-- A lexeme that ends before a point or a colon does not depend on what stands after that. -/
theorem next_local [Alphabet] {xmlLiterals operand : Bool} {modes : List Mode} {c : Char}
    {p v : List Char}
    (h : (next xmlLiterals operand modes c (p ++ d :: v)).1.more ≤ p.length) (v' : List Char) :
    next xmlLiterals operand modes c (p ++ d :: v') =
      next xmlLiterals operand modes c (p ++ d :: v) := by
  unfold next at h ⊢
  split
  · split
    · rename_i hbrace
      dsimp only at h
      rw [if_pos hbrace] at h
      exact ordinary_local hd h v'
    · rename_i hbrace
      dsimp only at h
      rw [if_neg hbrace] at h
      exact xmlText_local hd h v'
  · rename_i hmodes
    split at h
    · exact absurd rfl (hmodes _ _)
    · exact ordinary_local hd h v'

end
end Lexeme
end ScriptTree
