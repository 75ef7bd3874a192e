import ScriptTree.Proofs.FixedSpellings
import ScriptTree.Proofs.LexemeRuns
import ScriptTree.Proofs.LineBreaks

/-!
What stands next to a word. The hidden lexemes and selecting marks right before a word are read
alike whatever the word is. What stands after it depends on the word only where a regular expression
or an XML literal could begin, which it cannot after the end of an operand.
-/
namespace ScriptTree
open CharClass

/-! The beginning of a word. -/

/-- What is known of a character with which a word begins. -/
structure IsWordStart (c : Char) : Prop where
  not_break : isLineBreak c = false
  not_blank : isBlank c = false
  not_digit : isDigit c = false
  not_mark : c ∉ ['.', ':', '/', '*', '"', '\'', '@', '\x7b', '\x7d', '<']

theorem isWordStart_backslash : IsWordStart '\\' := ⟨rfl, rfl, rfl, by decide⟩

theorem isWordStart_of_isLetter {c : Char} (h : isLetter c = true) : IsWordStart c := by
  simp only [isLetter, Bool.or_eq_true, Bool.and_eq_true, decide_eq_true_eq] at h
  have hlow : 0x41 ≤ c.toNat := by
    rcases h with ⟨h, -⟩ | ⟨h, -⟩
    · exact Nat.le_trans (by decide) (show 0x61 ≤ c.toNat from h)
    · exact h
  have hhigh : c.toNat ≤ 0x7A := by
    rcases h with ⟨-, h⟩ | ⟨-, h⟩
    · exact h
    · exact Nat.le_trans (show c.toNat ≤ 0x5A from h) (by decide)
  constructor
  · by_contra hbreak
    simp only [isLineBreak, Bool.not_eq_false, Bool.or_eq_true, beq_iff_eq] at hbreak
    rcases hbreak with ((rfl | rfl) | rfl) | rfl <;> revert hlow hhigh <;> decide
  · by_contra hblank
    simp only [isBlank, Bool.not_eq_false, Bool.or_eq_true, Bool.and_eq_true, beq_iff_eq,
      decide_eq_true_eq] at hblank
    rcases hblank with
      (((((((((rfl | rfl) | rfl) | rfl) | rfl) | rfl) | ⟨hlo, -⟩) | rfl) | rfl) | rfl) | rfl
    case not_blank.inl.inl.inl.inl.inr =>
      exact absurd hhigh (Nat.not_le_of_lt (Nat.lt_of_lt_of_le (by decide) hlo))
    all_goals (revert hlow hhigh; decide)
  · by_contra hdigit
    simp only [isDigit, Bool.not_eq_false, Bool.and_eq_true, decide_eq_true_eq] at hdigit
    have hdigit : c.toNat ≤ 0x39 := hdigit.2
    omega
  · intro hmark
    simp only [List.mem_cons, List.not_mem_nil, or_false] at hmark
    rcases hmark with rfl | rfl | rfl | rfl | rfl | rfl | rfl | rfl | rfl | rfl <;> revert h <;>
      decide

/-- The first character of an identifier: a letter, one of two marks, or one from the alphabet. -/
theorem isWordStart_of_isIdentifierStart [Alphabet] [Alphabet.Spaced] {c : Char}
    (h : isIdentifierStart c = true) : IsWordStart c := by
  simp only [isIdentifierStart, Bool.or_eq_true, Bool.and_eq_true, beq_iff_eq,
    decide_eq_true_eq] at h
  rcases h with ((rfl | rfl) | hletter) | ⟨hlarge, hstart⟩
  · exact ⟨rfl, rfl, rfl, by decide⟩
  · exact ⟨rfl, rfl, rfl, by decide⟩
  · exact isWordStart_of_isLetter hletter
  · refine ⟨Alphabet.Spaced.not_isLineBreak hstart, Alphabet.Spaced.not_isBlank hstart, ?_, ?_⟩
    · by_contra hdigit
      simp only [isDigit, Bool.not_eq_false, Bool.and_eq_true, decide_eq_true_eq] at hdigit
      have hdigit : c.toNat ≤ 0x39 := hdigit.2
      omega
    · intro hmark
      have hsmall : ['.', ':', '/', '*', '"', '\'', '@', '\x7b', '\x7d', '<'].all
          (·.toNat ≤ 0x7F) = true := by decide
      have hc := of_decide_eq_true (List.all_eq_true.mp hsmall c hmark)
      omega

namespace Lexeme

theorem isWordStart_of_startsWord [Alphabet] [Alphabet.Spaced] {c : Char} {rest : List Char}
    (h : startsWord c rest = true) : IsWordStart c := by
  simp only [startsWord, Bool.or_eq_true, Bool.and_eq_true, beq_iff_eq] at h
  rcases h with h | ⟨rfl, -⟩
  · exact isWordStart_of_isIdentifierStart h
  · exact isWordStart_backslash

end Lexeme

namespace Kind

/-- The marks after which any word is the name of a property. -/
def isSelector : Kind → Bool
  | .dot | .dotDot | .colonColon => true
  | _ => false

/-- What may stand between an operand and the name of its property. -/
def isGap (k : Kind) : Bool := k.isHidden || k.isSelector

/-- Regular expressions and XML text, which begin only where an operand may. -/
def isRegExpOrXml : Kind → Bool
  | .regularExpressionLiteral | .xmlFragment | .xmlFragmentEnd => true
  | _ => false

theorem isRegExpOrXml_of_isHidden {k : Kind} (h : k.isHidden = true) :
    k.isRegExpOrXml = false := by
  revert h
  cases k <;> decide

theorem isGap_of_keywordText? {k : Kind} (h : k.keywordText?.isSome = true) :
    k.isGap = false := by
  revert h
  cases k <;> decide

end Kind

namespace Lexeme
variable {c : Char} {rest : List Char}

/-! Gaps. -/

/-- Only a point or a colon begins a selecting mark. -/
theorem first_of_mark (h : (mark c rest).kind.isGap = true) : c = '.' ∨ c = ':' := by
  have hselector : (mark c rest).kind.isSelector = true := by
    rwa [Kind.isGap, mark_isHidden, Bool.false_or] at h
  have hfirst (text : String) (hk : (mark c rest).kind.text? = some text) (x : Char)
      (hx : text.toList.head? = some x) : c = x := by
    have htake := (mark_readable c rest).take_size text hk
    obtain ⟨n, hn⟩ := Nat.exists_eq_succ_of_ne_zero (Nat.ne_of_gt (mark_size_pos c rest))
    rw [← htake, hn, List.take_succ_cons] at hx
    exact Option.some.inj hx
  generalize (mark c rest).kind = k at hselector hfirst
  cases k
  case dot => exact .inl (hfirst "." rfl _ rfl)
  case dotDot => exact .inl (hfirst ".." rfl _ rfl)
  case colonColon => exact .inr (hfirst "::" rfl _ rfl)
  all_goals cases hselector

theorem number_isGap (c : Char) (rest : List Char) : (number c rest).kind.isGap = false := by
  rcases number_kind c rest with h | h | h <;> rw [h] <;> rfl

theorem xmlAttribute_isGap [Alphabet] (rest : List Char) :
    (xmlAttribute rest).kind.isGap = false := by
  rcases xmlAttribute_kind rest with h | h <;> rw [h] <;> rfl

theorem word_isGap [Alphabet] (c : Char) (rest : List Char) : (word c rest).kind.isGap = false := by
  rcases word_kind c rest with h | h
  · rw [h]
    rfl
  · exact Kind.isGap_of_keywordText? h

/-- In a gap there are line ends, blanks, comments and selecting marks. -/
theorem Reads.gap_cases [Alphabet] {l : Lexeme} (h : Reads c rest l) (hgap : l.kind.isGap = true) :
    isLineBreak c = true ∨ isBlank c = true ∨ (c = '/' ∧ comment? rest = some l) ∨
      (c = '.' ∨ c = ':') := by
  cases h with
  | lineEnd hline => exact .inl hline
  | blank hblank => exact .inr (.inl hblank)
  | string | regExp => cases hgap
  | xmlAttribute => cases (xmlAttribute_isGap rest).symm.trans hgap
  | number => cases (number_isGap c rest).symm.trans hgap
  | word => cases (word_isGap c rest).symm.trans hgap
  | comment hslash hcomment => exact .inr (.inr (.inl ⟨hslash, hcomment⟩))
  | mark => exact .inr (.inr (.inr (first_of_mark hgap)))

theorem plain_slash [Alphabet] (operand : Bool) (rest : List Char) :
    plain operand '/' rest = slash operand rest := by
  simp [plain, isLineBreak, isBlank, isDigit, startsWord, isIdentifierStart, isLetter]

/-- A point or a colon begins a mark, unless a digit makes it a number. -/
theorem plain_selector [Alphabet] (hc : c = '.' ∨ c = ':') (operand : Bool) (rest : List Char) :
    plain operand c rest =
      if c == '.' && rest.head?.any isDigit then number c rest else mark c rest := by
  rcases hc with rfl | rfl <;>
    simp [plain, isLineBreak, isBlank, isDigit, startsWord, isIdentifierStart, isLetter]

/-- A mark that begins with a point or a colon is told by whether the same character follows. -/
theorem mark_selector (hc : c = '.' ∨ c = ':') {rest' : List Char}
    (h : rest'.head? = some c ↔ rest.head? = some c) : mark c rest' = mark c rest := by
  have hsecond (rest : List Char) : (c :: rest)[1]? = rest.head? := by
    rw [List.getElem?_cons_succ, List.head?_eq_getElem?]
  have hread : Operator.read? c (c :: rest') = Operator.read? c (c :: rest) := by
    rcases hc with rfl | rfl
    · have hdot (rest : List Char) : Operator.dot ('.' :: rest) =
          if rest.head? = some '.' then (.dotDot, 2) else (.dot, 1) := by
        rw [Operator.dot, hsecond]
        split <;> simp_all
      simp only [Operator.read?, hdot, h]
    · simp only [Operator.read?, Operator.colon, hsecond, beq_iff_eq, h]
  rw [mark, mark, hread]

variable {x x' : Char} {p v : List Char}

/-- What begins no word stands before one word exactly if it stands before another. -/
theorem head?_before_word (hx : IsWordStart x) (hx' : IsWordStart x') {y : Char}
    (hy : ¬IsWordStart y) (p v v' : List Char) :
    (p ++ x' :: v').head? = some y ↔ (p ++ x :: v).head? = some y := by
  cases p with
  | nil =>
    refine iff_of_false ?_ ?_
    · rintro ⟨⟩
      exact hy hx'
    · rintro ⟨⟩
      exact hy hx
  | cons => rfl

/-- What is read in a gap before a word is read alike before every other word. -/
theorem plain_gap [Alphabet] {operand : Bool} (hx : IsWordStart x) (hx' : IsWordStart x')
    (hgap : (plain operand c (p ++ x :: v)).kind.isGap = true)
    (hmore : (plain operand c (p ++ x :: v)).more ≤ p.length) (v' : List Char) :
    plain operand c (p ++ x' :: v') = plain operand c (p ++ x :: v) := by
  rcases (plain_reads operand c (p ++ x :: v)).gap_cases hgap with
    hline | hblank | ⟨rfl, hcomment⟩ | hc
  · have hfeed : ((p ++ x' :: v').head? == some '\n') = ((p ++ x :: v).head? == some '\n') := by
      rw [Bool.eq_iff_iff, beq_iff_eq, beq_iff_eq]
      exact head?_before_word hx hx' (fun h => by cases h.not_break) p v v'
    simp only [plain, hline, hfeed, if_true]
  · have hline : isLineBreak c = false := by
      by_contra hline
      cases (isBlank_of_isLineBreak (by simpa using hline)).symm.trans hblank
    simp only [plain, hline, hblank, if_true, Bool.false_eq_true, if_false] at hmore ⊢
    have hrun : runLength isBlank (p ++ x :: v) ≤ p.length := by
      dsimp only [more] at hmore
      omega
    rw [runLength_local (by rw [hx.not_blank, hx'.not_blank]) hrun v']
  · have hnot : x ≠ '/' ∧ x ≠ '*' := by
      constructor <;> rintro rfl <;> exact hx.not_mark (by decide)
    rw [plain_slash, slash,
      comment?_local (by rw [hx.not_break, hx'.not_break]) hnot hcomment hmore v']
  · have hdigit : (p ++ x' :: v').head?.any isDigit = (p ++ x :: v).head?.any isDigit := by
      cases p with
      | nil => simp [hx.not_digit, hx'.not_digit]
      | cons => rfl
    have hnot : ¬IsWordStart c := fun h => h.not_mark (by rcases hc with rfl | rfl <;> decide)
    rw [plain_selector hc] at hgap
    rw [plain_selector hc, plain_selector hc, hdigit,
      mark_selector hc (head?_before_word hx hx' hnot p v v')]
    split
    · rename_i hnumber
      rw [if_pos hnumber, number_isGap] at hgap
      cases hgap
    · rfl

/-! Outside XML text. -/

end Lexeme

/-- Whether the text is read as XML. -/
def Mode.inXml (modes : List Mode) : Bool := modes.head?.any isXml

namespace Lexeme
variable {c x x' : Char} {rest p v : List Char} {xmlLiterals operand : Bool}
  {modes modes' : List Mode}

theorem next_outside [Alphabet] (h : Mode.inXml modes = false) :
    next xmlLiterals operand modes c rest = ordinary xmlLiterals operand modes c rest := by
  unfold next
  split
  · cases h
  · rfl

/-- In XML text there is only that text, but for the brace of an expression. -/
theorem kind_of_inXml [Alphabet] (h : Mode.inXml modes = true) :
    (next xmlLiterals operand modes c rest).1.kind ∈
      [.openBrace, .xmlFragment, .xmlFragmentEnd] := by
  unfold next
  split
  · split
    · rename_i hbrace
      simp only [Bool.and_eq_true, beq_iff_eq] at hbrace
      obtain ⟨rfl, -⟩ := hbrace
      exact .head _
    · rename_i state outer _
      rcases xmlText_kind state outer c rest with hk | hk <;> simp [hk]
  · rename_i hmodes
    cases modes with
    | nil => cases h
    | cons m outer =>
      cases m with
      | xml state => exact absurd rfl (hmodes state outer)
      | embedded => cases h

theorem outside_of [Alphabet] {q : Kind → Bool}
    (h : q (next xmlLiterals operand modes c rest).1.kind = true)
    (hq : ∀ k ∈ [Kind.openBrace, .xmlFragment, .xmlFragmentEnd], q k = false) :
    Mode.inXml modes = false := by
  by_contra hin
  have hkind : q (next xmlLiterals operand modes c rest).1.kind = false :=
    hq _ (kind_of_inXml (by simpa using hin))
  rw [h] at hkind
  cases hkind

/-- Outside XML text the modes change only with a brace or a literal. -/
theorem next_plain [Alphabet] (h : Mode.inXml modes = false) (hc : c ∉ ['\x7b', '\x7d', '<']) :
    next xmlLiterals operand modes c rest = (plain operand c rest, modes) := by
  simp only [List.mem_cons, List.not_mem_nil, or_false, not_or] at hc
  rw [next_outside h, ordinary, if_neg (by simpa using hc.1), if_neg (by simpa using hc.2.1),
    if_neg (by simp [hc.2.2])]

theorem next_gap_cases [Alphabet]
    (h : (next xmlLiterals operand modes c rest).1.kind.isGap = true) :
    Mode.inXml modes = false ∧ c ∉ ['\x7b', '\x7d', '<'] := by
  refine ⟨outside_of h (by decide), fun hc => ?_⟩
  simp only [List.mem_cons, List.not_mem_nil, or_false] at hc
  rcases next_cases xmlLiterals operand modes c rest with hreads | ⟨state, outer, -, htext⟩
  · rcases hreads.gap_cases h with hline | hblank | ⟨hslash, -⟩ | hmark
    · rcases hc with rfl | rfl | rfl <;> cases hline
    · rcases hc with rfl | rfl | rfl <;> cases hblank
    · subst hslash
      revert hc
      decide
    · rcases hmark with rfl | rfl <;> revert hc <;> decide
  · rw [htext] at h
    rcases xmlText_kind state outer c rest with hk | hk <;> rw [hk] at h <;> cases h

theorem modes_of_isGap [Alphabet]
    (h : (next xmlLiterals operand modes c rest).1.kind.isGap = true) :
    (next xmlLiterals operand modes c rest).2 = modes := by
  obtain ⟨houtside, hc⟩ := next_gap_cases h
  rw [next_plain houtside hc]

theorem next_gap [Alphabet] (hx : IsWordStart x) (hx' : IsWordStart x')
    (hgap : (next xmlLiterals operand modes c (p ++ x :: v)).1.kind.isGap = true)
    (hmore : (next xmlLiterals operand modes c (p ++ x :: v)).1.more ≤ p.length) (v' : List Char) :
    next xmlLiterals operand modes c (p ++ x' :: v') =
      next xmlLiterals operand modes c (p ++ x :: v) := by
  obtain ⟨houtside, hc⟩ := next_gap_cases hgap
  rw [next_plain houtside hc] at hgap hmore ⊢
  rw [next_plain houtside hc, plain_gap hx hx' hgap hmore v']

/-! Words. -/

theorem plain_word [Alphabet] [Alphabet.Spaced] (h : startsWord c rest = true) :
    plain operand c rest = word c rest := by
  have hc := isWordStart_of_startsWord h
  have hmark := hc.not_mark
  simp only [List.mem_cons, List.not_mem_nil, or_false, not_or] at hmark
  simp [plain, hc.not_break, hc.not_blank, hc.not_digit, hmark, h]

theorem next_word [Alphabet] [Alphabet.Spaced] (houtside : Mode.inXml modes = false)
    (h : startsWord c rest = true) :
    next xmlLiterals operand modes c rest = (word c rest, modes) := by
  have hc := (isWordStart_of_startsWord h).not_mark
  rw [next_plain houtside fun hmem => hc ?_, plain_word h]
  revert hmem
  simp only [List.mem_cons, List.not_mem_nil, or_false]
  rintro (rfl | rfl | rfl) <;> decide

theorem mark_isKeyword (c : Char) (rest : List Char) : (mark c rest).kind.isKeyword = false := by
  rcases mark_kind c rest with h | h
  · rw [h]
    rfl
  · exact (Kind.not_isKeyword_of_punctuationText? h).1

/-- A keyword is a word outside XML text. -/
theorem next_isKeyword [Alphabet]
    (h : (next xmlLiterals operand modes c rest).1.kind.isKeyword = true) :
    Mode.inXml modes = false ∧ startsWord c rest = true := by
  refine ⟨outside_of h (by decide), ?_⟩
  rcases next_cases xmlLiterals operand modes c rest with hreads | ⟨state, outer, -, htext⟩
  · rcases hreads.mark_or_word with hmark | ⟨hword, -⟩ | hother
    · rw [hmark, mark_isKeyword] at h
      cases h
    · exact hword
    · rw [Kind.isMarkOrWord_of_isKeyword h] at hother
      cases hother
  · rw [htext] at h
    rcases xmlText_kind state outer c rest with hk | hk <;> rw [hk] at h <;> cases h

/-! The end of an operand. -/

theorem isRegExpOrXml_of_isFaultless {k : Kind} (h : k.isFaultless = true) :
    k.isRegExpOrXml = false := by
  revert h
  cases k <;> decide

/-- Marks begin no operand of this sort. -/
theorem mark_isRegExpOrXml (c : Char) (rest : List Char) :
    (mark c rest).kind.isRegExpOrXml = false := by
  rcases mark_isSound c rest with hsound | hinvalid
  · exact isRegExpOrXml_of_isFaultless hsound.2
  · rw [hinvalid]
    rfl

/-- A regular expression begins with a slash. -/
theorem Reads.slash_of_isRegExpOrXml [Alphabet] {l : Lexeme} (h : Reads c rest l)
    (hl : l.kind.isRegExpOrXml = true) : c = '/' ∧ comment? rest = none := by
  cases h with
  | lineEnd | blank | string => cases hl
  | xmlAttribute =>
    rcases xmlAttribute_isSound rest with hsound | hinvalid
    · cases (isRegExpOrXml_of_isFaultless hsound.2).symm.trans hl
    · rw [hinvalid] at hl
      cases hl
  | number => cases (isRegExpOrXml_of_isFaultless (number_isSound c rest).2).symm.trans hl
  | word => cases (isRegExpOrXml_of_isFaultless (word_isSound c rest).2).symm.trans hl
  | comment _ hcomment =>
    rcases comment?_kind hcomment with hk | hk <;> rw [hk] at hl <;> cases hl
  | regExp hslash hcomment => exact ⟨hslash, hcomment⟩
  | mark => cases (mark_isRegExpOrXml c rest).symm.trans hl

/-- After an operand no regular expression begins. -/
theorem plain_true_isRegExpOrXml [Alphabet] (c : Char) (rest : List Char) :
    (plain true c rest).kind.isRegExpOrXml = false := by
  by_contra hbegins
  have hbegins : (plain true c rest).kind.isRegExpOrXml = true := by simpa using hbegins
  obtain ⟨rfl, hcomment⟩ := (plain_reads true c rest).slash_of_isRegExpOrXml hbegins
  rw [plain_slash, slash, hcomment] at hbegins
  cases (mark_isRegExpOrXml '/' rest).symm.trans hbegins

theorem ordinary_true_isRegExpOrXml [Alphabet] (xmlLiterals : Bool) (modes : List Mode) (c : Char)
    (rest : List Char) :
    (ordinary xmlLiterals true modes c rest).1.kind.isRegExpOrXml = false := by
  unfold ordinary
  split
  · exact mark_isRegExpOrXml c rest
  split
  · exact mark_isRegExpOrXml c rest
  split
  · rename_i hxml
    simp at hxml
  · exact plain_true_isRegExpOrXml c rest

/-- What is no regular expression is the same after an operand. -/
theorem plain_operand [Alphabet] (h : (plain operand c rest).kind.isRegExpOrXml = false) :
    plain true c rest = plain operand c rest := by
  by_cases hslash : c = '/'
  · subst hslash
    rw [plain_slash] at h ⊢
    rw [plain_slash]
    unfold slash at h ⊢
    cases hcomment : comment? rest with
    | some l => rfl
    | none =>
      cases operand with
      | true => rfl
      | false =>
        rw [hcomment] at h
        cases h
  · simp [plain, hslash]

theorem ordinary_operand [Alphabet]
    (h : (ordinary xmlLiterals operand modes c rest).1.kind.isRegExpOrXml = false) :
    ordinary xmlLiterals true modes c rest = ordinary xmlLiterals operand modes c rest := by
  unfold ordinary at h ⊢
  split
  · rfl
  rename_i hopen
  rw [if_neg hopen] at h
  split
  · rfl
  rename_i hclose
  rw [if_neg hclose] at h
  rw [if_neg (by simp)]
  split
  · rename_i hxml
    rw [if_pos hxml] at h
    rcases xmlText_kind _ modes c rest with hk | hk <;> rw [hk] at h <;> cases h
  · rename_i hxml
    rw [if_neg hxml] at h
    rw [plain_operand h]

theorem next_operand [Alphabet] (houtside : Mode.inXml modes = false)
    (h : (next xmlLiterals operand modes c rest).1.kind.isRegExpOrXml = false) :
    next xmlLiterals true modes c rest = next xmlLiterals operand modes c rest := by
  rw [next_outside houtside] at h ⊢
  rw [next_outside houtside, ordinary_operand h]

/-- After an operand neither a regular expression nor an XML literal begins. -/
theorem next_true_isRegExpOrXml [Alphabet] (houtside : Mode.inXml modes = false) :
    (next xmlLiterals true modes c rest).1.kind.isRegExpOrXml = false := by
  rw [next_outside houtside]
  exact ordinary_true_isRegExpOrXml xmlLiterals modes c rest

end Lexeme
end ScriptTree
