import ScriptTree.Proofs.LexemeReaders

/-!
How far lexemes reach. Each reader claims a character at least, and only characters that are there,
whether or not the delimiters it looks for are; and each gives the kind of a token.
`Lexeme.next_size_pos`, `Lexeme.next_size_le` and `Lexeme.next_readable` say so of the lexeme at any
place of any text.
-/
namespace ScriptTree

theorem lengthThrough?_le {mark text : List Char} {n : Nat}
    (h : lengthThrough? mark text = some n) : n ≤ text.length := by
  induction text generalizing n with
  | nil => simp [lengthThrough?] at h
  | cons c rest ih =>
    rw [lengthThrough?] at h
    split at h
    · rename_i hp
      obtain rfl : mark.length = n := by simpa using h
      exact (List.isPrefixOf_iff_prefix.mp hp).length_le
    · obtain ⟨m, hm, rfl⟩ := Option.map_eq_some_iff.mp h
      have := ih hm
      simp only [List.length_cons]
      omega

namespace Lexeme
open CharClass

theorem stringExtent_length_le (quote : Char) (text : List Char) :
    (stringExtent quote text).length ≤ text.length := by
  fun_induction stringExtent quote text with
  | case1 => exact Nat.le_refl 0
  | case2 rest ih => simpa [Extent.after] using ih
  | case3 d rest _ ih => simpa [Extent.after] using ih
  | case4 c rest => simp
  | case5 c rest => simp
  | case6 c rest _ _ _ _ ih => simpa [Extent.after] using ih

theorem regExpExtent_length_le [Alphabet] (inClass : Bool) (text : List Char) :
    (regExpExtent inClass text).length ≤ text.length := by
  fun_induction regExpExtent inClass text with
  | case1 => exact Nat.le_refl 0
  | case2 => simp
  | case3 => simp
  | case4 => simp
  | case5 inClass c d after _ _ _ ih => simpa [Extent.after] using ih
  | case6 inClass c rest =>
    have := runLength_le isIdentifierPart rest
    simp only [List.length_cons]
    omega
  | case7 inClass c rest _ _ _ ih => simpa [Extent.after] using ih

theorem blockCommentExtent_length_le (text : List Char) :
    (blockCommentExtent text).length ≤ text.length := by
  unfold blockCommentExtent
  split
  · rename_i n h
    exact lengthThrough?_le h
  · exact Nat.le_refl _

theorem comment?_size_le {rest : List Char} {l : Lexeme} (h : comment? rest = some l) :
    l.size ≤ rest.length + 1 := by
  unfold comment? at h
  split at h
  · rename_i tail
    obtain rfl := Option.some.inj h
    have := runLength_le (fun c => !isLineBreak c) tail
    simpa [lineCommentLength] using this
  · rename_i tail
    obtain rfl := Option.some.inj h
    have := blockCommentExtent_length_le tail
    simpa [delimited, Extent.after] using this
  · cases h

theorem comment?_size_pos {rest : List Char} {l : Lexeme} (h : comment? rest = some l) :
    0 < l.size := by
  unfold comment? at h
  split at h <;> cases h <;> exact Nat.succ_pos _

theorem exponentLength_le (text : List Char) : exponentLength text ≤ text.length := by
  unfold exponentLength
  split
  · rename_i e rest
    split
    · -- The sign is one character at most, and the digits come after it.
      have hdigits (sign : Nat) (hs : sign ≤ rest.length) :
          (if runLength isDigit (rest.drop sign) == 0 then 0
            else 1 + sign + runLength isDigit (rest.drop sign)) ≤ (e :: rest).length := by
        have := runLength_le isDigit (rest.drop sign)
        rw [List.length_drop] at this
        rw [List.length_cons]
        split <;> omega
      apply hdigits
      cases rest with
      | nil => exact Nat.le_refl 0
      | cons c tail => dsimp only; split <;> simp
    · exact Nat.zero_le _
  · exact Nat.zero_le _

theorem fractionLength_le (text : List Char) : fractionLength text ≤ text.length := by
  unfold fractionLength
  split
  · rename_i rest
    have := runLength_le isDigit rest
    simp only [List.length_cons]
    omega
  · exact Nat.zero_le _

theorem decimalLength_le (text : List Char) : decimalLength text ≤ text.length := by
  have hwhole := runLength_le isDigit text
  have hfraction := fractionLength_le (text.drop (runLength isDigit text))
  have hexponent := exponentLength_le (text.drop (runLength isDigit text +
    fractionLength (text.drop (runLength isDigit text))))
  simp only [List.length_drop] at hfraction hexponent
  unfold decimalLength
  dsimp only
  omega

theorem number_size_le (c : Char) (rest : List Char) :
    (number c rest).size ≤ rest.length + 1 := by
  have hdecimal : decimalLength (c :: rest) ≤ rest.length + 1 := decimalLength_le (c :: rest)
  unfold number
  dsimp only
  split
  · split
    · exact hdecimal
    · rename_i d digits
      split
      · have := runLength_le isHexDigit digits
        simp only [List.length_cons]
        omega
      · split
        · exact hdecimal
        · have := runLength_le isOctalDigit (d :: digits)
          dsimp only
          omega
  · exact hdecimal

theorem decimalLength_pos {c : Char} (rest : List Char) (h : isDigit c = true ∨ c = '.') :
    0 < decimalLength (c :: rest) := by
  unfold decimalLength
  dsimp only
  rcases h with h | rfl
  · have hwhole : 0 < runLength isDigit (c :: rest) := by
      simp [runLength, h]
    omega
  · have hwhole : runLength isDigit ('.' :: rest) = 0 := rfl
    rw [hwhole, List.drop_zero, fractionLength]
    omega

/-- A number begins with a digit, or with a point and a digit. -/
theorem number_size_pos {c : Char} {rest : List Char}
    (h : (isDigit c || (c == '.' && rest.head?.any isDigit)) = true) :
    0 < (number c rest).size := by
  simp only [Bool.or_eq_true, Bool.and_eq_true, beq_iff_eq] at h
  have hdecimal := decimalLength_pos rest (h.imp_right fun hpoint => hpoint.1)
  unfold number
  dsimp only
  split
  · split
    · exact hdecimal
    · split
      · exact Nat.lt_of_lt_of_le Nat.two_pos (Nat.le_add_right 2 _)
      · split
        · exact hdecimal
        · exact Nat.lt_of_lt_of_le Nat.one_pos (Nat.le_add_right 1 _)
  · exact hdecimal

section
variable [Alphabet]

theorem wordLength_le (text : List Char) : wordLength text ≤ text.length := by
  fun_induction wordLength text with
  | case1 rest ih => simpa using ih
  | case2 c rest _ _ ih => simpa using ih
  | case3 => exact Nat.zero_le _
  | case4 => exact Nat.le_refl 0

theorem word_size_le (c : Char) (rest : List Char) : (word c rest).size ≤ rest.length + 1 :=
  wordLength_le (c :: rest)

/-- A word goes on with an identifier character. -/
theorem wordLength_of_part {c : Char} (h : isIdentifierPart c = true) (rest : List Char) :
    wordLength (c :: rest) = wordLength rest + 1 := by
  have hescape : ∀ tail, c = '\\' → rest = 'u' :: tail → False := by
    rintro _ rfl
    cases h
  rw [wordLength.eq_2 _ _ hescape, if_pos h]

/-- It ends before a character that is neither one of these nor begins an escape. -/
theorem wordLength_of_not_part {c : Char} {rest : List Char} (h : isIdentifierPart c = false)
    (hescape : (c == '\\' && rest.head? == some 'u') = false) : wordLength (c :: rest) = 0 := by
  rw [wordLength.eq_2 _ _ (by rintro tail rfl rfl; cases hescape), h, if_neg Bool.false_ne_true]

theorem wordLength_pos {c : Char} {rest : List Char} (h : startsWord c rest = true) :
    0 < wordLength (c :: rest) := by
  simp only [startsWord, Bool.or_eq_true, Bool.and_eq_true, beq_iff_eq] at h
  rcases h with h | ⟨rfl, h⟩
  · rw [wordLength_of_part (isIdentifierPart_of_start h)]
    exact Nat.succ_pos _
  · obtain ⟨tail, rfl⟩ := List.head?_eq_some_iff.mp h
    exact Nat.succ_pos _

theorem xmlAttribute_size_le (rest : List Char) : (xmlAttribute rest).size ≤ rest.length + 1 := by
  unfold xmlAttribute
  split
  · simp
  · rename_i c tail _
    split
    · have := wordLength_le (c :: tail)
      dsimp only
      omega
    · simp [invalid]
  · exact Nat.le_refl 1

theorem xmlAttribute_size_pos (rest : List Char) : 0 < (xmlAttribute rest).size := by
  unfold xmlAttribute
  split
  · exact Nat.two_pos
  · split
    · exact Nat.lt_of_lt_of_le Nat.one_pos (Nat.le_add_right 1 _)
    · exact Nat.one_pos
  · exact Nat.one_pos

end

/-- A mark is punctuation, unless no mark begins there. -/
theorem mark_kind (c : Char) (rest : List Char) :
    mark c rest = invalid ∨ (mark c rest).kind.punctuationText?.isSome = true := by
  unfold mark
  split
  · rename_i k n hk
    obtain ⟨text, htext, -⟩ := Operator.read?_begins hk
    refine .inr ?_
    rw [htext]
    rfl
  · exact .inl rfl

theorem mark_size_le (c : Char) (rest : List Char) : (mark c rest).size ≤ rest.length + 1 := by
  unfold mark
  split
  · rename_i k n hk
    obtain ⟨text, -, hbegins, hlength⟩ := Operator.read?_begins hk
    have hle : text.toList.length ≤ (c :: rest).length := hbegins.length_le
    rw [hlength] at hle
    exact hle
  · exact Nat.le_add_left 1 _

theorem mark_size_pos (c : Char) (rest : List Char) : 0 < (mark c rest).size := by
  unfold mark
  split
  · rename_i hk
    exact Operator.length_pos (Operator.read?_begins hk)
  · exact Nat.one_pos

section
variable [Alphabet] {c : Char} {rest : List Char} {l : Lexeme}

theorem Reads.size_le (h : Reads c rest l) : l.size ≤ rest.length + 1 := by
  cases h with
  | lineEnd =>
    cases rest with
    | nil => simp
    | cons d tail => dsimp only; split <;> simp
  | blank =>
    have := runLength_le isBlank rest
    dsimp only
    omega
  | string => exact Nat.succ_le_succ (stringExtent_length_le c rest)
  | xmlAttribute => exact xmlAttribute_size_le rest
  | number => exact number_size_le c rest
  | word => exact word_size_le c rest
  | comment _ h => exact comment?_size_le h
  | regExp => exact Nat.succ_le_succ (regExpExtent_length_le false rest)
  | mark => exact mark_size_le c rest

/-- Each reader gets on, where it is asked. -/
theorem Reads.size_pos (h : Reads c rest l) : 0 < l.size := by
  cases h with
  | lineEnd => dsimp only; split <;> decide
  | blank => exact Nat.lt_of_lt_of_le Nat.one_pos (Nat.le_add_right 1 _)
  | string | regExp => exact Nat.succ_pos _
  | xmlAttribute => exact xmlAttribute_size_pos rest
  | number h => exact number_size_pos h
  | word h => exact wordLength_pos h
  | comment _ h => exact comment?_size_pos h
  | mark => exact mark_size_pos c rest

end

end Lexeme

namespace XmlState

theorem proceedOrFinish_more_le {s : XmlState} {more n bound : Nat} (hb : more ≤ bound)
    (h : s.proceedOrFinish more = .finish n) : n ≤ bound := by
  unfold proceedOrFinish at h
  split at h
  · cases h
    exact hb
  · cases h

theorem section?_opening_le {text : List Char} {opening : Nat} {mark : List Char}
    (h : section? text = some (opening, mark)) : opening ≤ text.length := by
  unfold section? at h
  split at h
  · rename_i hp
    cases h
    exact (List.isPrefixOf_iff_prefix.mp hp).length_le
  split at h
  · rename_i hp
    cases h
    exact (List.isPrefixOf_iff_prefix.mp hp).length_le
  split at h
  · rename_i hp
    cases h
    exact (List.isPrefixOf_iff_prefix.mp hp).length_le
  · cases h

theorem tagStep_more_le {s : XmlState} {c : Char} {rest : List Char} {n : Nat}
    (h : s.tagStep c rest = .finish n) : n ≤ rest.length := by
  unfold tagStep at h
  split at h
  · cases h
  split at h
  · rename_i hc
    cases rest with
    | nil => simp at hc
    | cons d tail => exact proceedOrFinish_more_le (by simp) h
  split at h
  · split at h
    · exact proceedOrFinish_more_le (Nat.zero_le _) h
    · cases h
  · cases h

theorem bracketStep_more_le {s : XmlState} {rest : List Char} {n : Nat}
    (h : s.bracketStep rest = .finish n) : n ≤ rest.length := by
  unfold bracketStep at h
  split at h
  · rename_i opening mark hs
    split at h
    · rename_i m hm
      have hopening := section?_opening_le hs
      have hmark := lengthThrough?_le hm
      rw [List.length_drop] at hmark
      rw [List.length_cons] at hopening
      exact proceedOrFinish_more_le (by omega) h
    · cases h
  · split at h <;> cases h

theorem step_more_le {s : XmlState} {c : Char} {rest : List Char} {n : Nat}
    (h : s.step c rest = .finish n) : n ≤ rest.length := by
  unfold step at h
  split at h
  · cases h
  split at h
  · cases h
  split at h
  · exact tagStep_more_le h
  split at h
  · exact bracketStep_more_le h
  · cases h

/-- Only a brace outside quotes embeds an expression. -/
theorem step_ne_embed {s : XmlState} {c : Char} (h : (c == '{' && s.quote.isNone) = false)
    (rest : List Char) : s.step c rest ≠ .embed := by
  have hclose (s : XmlState) (n : Nat) : s.proceedOrFinish n ≠ .embed := by
    unfold proceedOrFinish
    split <;> nofun
  unfold step
  split
  · nofun
  rename_i hquote
  rw [hquote, Option.isNone_none, Bool.and_true] at h
  rw [h, if_neg Bool.false_ne_true]
  unfold tagStep bracketStep
  repeat' split
  all_goals first
    | exact hclose _ _
    | simp

/-- A stretch gets on where it does not end before an embedded expression at once. -/
theorem stretch_pos {s : XmlState} {c : Char} (h : (c == '{' && s.quote.isNone) = false)
    (rest : List Char) : 0 < (stretch 0 s (c :: rest)).1 := by
  rw [stretch]
  split
  · rename_i hstep
    exact absurd hstep (step_ne_embed h rest)
  · exact Nat.succ_pos _
  · exact Nat.succ_pos _

/-- A stretch of XML text ends inside the text. -/
theorem stretch_le (skip : Nat) (s : XmlState) (text : List Char) :
    (stretch skip s text).1 ≤ text.length := by
  fun_induction stretch skip s text with
  | case1 => exact Nat.le_refl 0
  | case2 s skip _ rest n e h ih =>
    rw [h] at ih
    simpa using ih
  | case3 => exact Nat.zero_le _
  | case4 s c rest more h =>
    have := step_more_le h
    simpa using this
  | case5 s c rest more s' h n e hr ih =>
    rw [hr] at ih
    simpa using ih

end XmlState

namespace Lexeme
open CharClass

theorem xmlText_size_le (state : XmlState) (outer : List Mode) (c : Char) (rest : List Char) :
    (xmlText state outer c rest).1.size ≤ rest.length + 1 := by
  have hs := state.stretch_le 0 (c :: rest)
  unfold xmlText
  split <;> rename_i n _ he <;> rw [he] at hs <;> exact hs

theorem xmlText_size_pos {state : XmlState} {c : Char}
    (h : (c == '{' && state.quote.isNone) = false) (outer : List Mode) (rest : List Char) :
    0 < (xmlText state outer c rest).1.size := by
  have hs := XmlState.stretch_pos h rest
  unfold xmlText
  split <;> rename_i n _ he <;> rw [he] at hs <;> exact hs

section
variable [Alphabet]

/-- A lexeme has no more characters than the text it begins. -/
theorem next_size_le (xmlLiterals afterOperand : Bool) (modes : List Mode) (c : Char)
    (rest : List Char) :
    (next xmlLiterals afterOperand modes c rest).1.size ≤ (c :: rest).length := by
  rcases next_cases xmlLiterals afterOperand modes c rest with hreads | ⟨state, outer, -, htext⟩
  · exact hreads.size_le
  · rw [htext]
    exact xmlText_size_le state outer c rest

/-- A lexeme has a character at least. -/
theorem next_size_pos (xmlLiterals afterOperand : Bool) (modes : List Mode) (c : Char)
    (rest : List Char) : 0 < (next xmlLiterals afterOperand modes c rest).1.size := by
  rcases next_cases xmlLiterals afterOperand modes c rest with hreads | ⟨state, outer, hc, htext⟩
  · exact hreads.size_pos
  · rw [htext]
    exact xmlText_size_pos hc outer rest

theorem next_more_add_one (xmlLiterals afterOperand : Bool) (modes : List Mode) (c : Char)
    (rest : List Char) :
    (next xmlLiterals afterOperand modes c rest).1.more + 1 =
      (next xmlLiterals afterOperand modes c rest).1.size :=
  Nat.sub_add_cancel (next_size_pos xmlLiterals afterOperand modes c rest)

end

/-- Kinds that a token of a text may have. -/
def isReadable (k : Kind) : Bool := k.isToken && k != .endOfFile

/-- Those of them that have no text of their own: not the kinds of punctuation marks and
keywords. -/
def isUnmarked (k : Kind) : Bool := isReadable k && k.text?.isNone

/-- The kind of a lexeme at the beginning of `text` is that of a token, and a punctuation mark or a
keyword is written as its kind is spelled. -/
structure Readable (text : List Char) (l : Lexeme) : Prop where
  kind_readable : isReadable l.kind = true
  take_size : ∀ mark, l.kind.text? = some mark → text.take l.size = mark.toList

theorem readable_of_isUnmarked {text : List Char} {l : Lexeme} (h : isUnmarked l.kind = true) :
    l.Readable text := by
  rw [isUnmarked, Bool.and_eq_true, Option.isNone_iff_eq_none] at h
  refine ⟨h.1, fun mark hmark => ?_⟩
  rw [h.2] at hmark
  cases hmark

theorem mark_readable (c : Char) (rest : List Char) : (mark c rest).Readable (c :: rest) := by
  unfold mark
  split
  · rename_i k n hk
    obtain ⟨text, htext, hbegins, rfl⟩ := Operator.read?_begins hk
    have hkind : ∀ k : Kind, k.punctuationText?.isSome = true → isReadable k = true := by
      intro k
      cases k <;> decide
    refine ⟨hkind k (by rw [htext]; rfl), fun mark hmark => ?_⟩
    rw [Kind.text?, htext, Option.some_or] at hmark
    obtain rfl : text = mark := Option.some.inj hmark
    exact (List.prefix_iff_eq_take.mp hbegins).symm
  · exact readable_of_isUnmarked rfl

theorem number_isUnmarked (c : Char) (rest : List Char) :
    isUnmarked (number c rest).kind = true := by
  rcases number_kind c rest with h | h | h <;> rw [h] <;> rfl

theorem keyword_isReadable {k : Kind} (h : k.keywordText?.isSome = true) :
    isReadable k = true ∧ k.punctuationText? = none := by
  revert h
  cases k <;> decide

section
variable [Alphabet]

/-- A keyword is a word that is spelled like it. -/
theorem word_readable (c : Char) (rest : List Char) : (word c rest).Readable (c :: rest) := by
  unfold word
  dsimp only
  cases hk : Kind.ofKeyword? (String.ofList ((c :: rest).take (wordLength (c :: rest)))) with
  | none => exact readable_of_isUnmarked rfl
  | some k =>
    have hspelled := Kind.ofKeyword?_eq_some_iff.mp hk
    obtain ⟨hread, hmark⟩ := keyword_isReadable (k := k) (by rw [hspelled]; rfl)
    refine ⟨hread, fun text htext => ?_⟩
    rw [Option.getD_some, Kind.text?, hmark, Option.none_or, hspelled, Option.some.injEq] at htext
    rw [← htext, String.toList_ofList]

theorem xmlAttribute_isUnmarked (rest : List Char) :
    isUnmarked (xmlAttribute rest).kind = true := by
  rcases xmlAttribute_kind rest with h | h <;> rw [h] <;> rfl

theorem Reads.readable {c : Char} {rest : List Char} {l : Lexeme} (h : Reads c rest l) :
    l.Readable (c :: rest) := by
  cases h with
  | lineEnd | blank | string | regExp => exact readable_of_isUnmarked rfl
  | xmlAttribute => exact readable_of_isUnmarked (xmlAttribute_isUnmarked rest)
  | number => exact readable_of_isUnmarked (number_isUnmarked c rest)
  | word => exact word_readable c rest
  | comment _ h =>
    apply readable_of_isUnmarked
    rcases comment?_kind h with hkind | hkind <;> rw [hkind] <;> rfl
  | mark => exact mark_readable c rest

omit [Alphabet] in
theorem xmlText_isUnmarked (state : XmlState) (outer : List Mode) (c : Char) (rest : List Char) :
    isUnmarked (xmlText state outer c rest).1.kind = true := by
  rcases xmlText_kind state outer c rest with h | h <;> rw [h] <;> rfl

/-- A lexeme makes a token: neither the end of the input nor a rule of the grammar. -/
theorem next_readable (xmlLiterals afterOperand : Bool) (modes : List Mode) (c : Char)
    (rest : List Char) :
    (next xmlLiterals afterOperand modes c rest).1.Readable (c :: rest) := by
  rcases next_cases xmlLiterals afterOperand modes c rest with hreads | ⟨state, outer, -, htext⟩
  · exact hreads.readable
  · rw [htext]
    exact readable_of_isUnmarked (xmlText_isUnmarked state outer c rest)

end

end Lexeme
end ScriptTree
