import ScriptTree.Proofs.TokenLexemes

/-!
Tokens with a fixed text. Punctuation marks and keywords are written as their kinds are spelled, and
none of them could be longer: a mark is the longest that the text at its place begins with, and a
word goes on as far as it can. So a name is never spelled like a keyword. Whatever the alphabet is,
the operators of the scanner and its keywords agree with the tables of spellings.
-/
namespace ScriptTree
open CharClass

section
variable [Alphabet]

/-- No word goes on with `after`. -/
structure EndsWord (after : List Char) : Prop where
  head : ∀ c, after.head? = some c → isIdentifierPart c = false
  escape : ¬['\\', 'u'] <+: after

/-- A token of kind `k` is written `part` before `after` as its spelling asks: a fixed text is that
of the kind, a name is no keyword, no mark at the place is longer than the one that is read, and no
word goes on after its end. -/
structure Spelled (k : Kind) (part after : List Char) : Prop where
  text_eq : ∀ text, k.text? = some text → part = text.toList
  not_keyword : k = .identifier → ∀ k' : Kind, k'.keywordText? ≠ some (String.ofList part)
  longest : k.punctuationText?.isSome = true → ∀ (k' : Kind) (mark : String),
    k'.punctuationText? = some mark → mark.toList <+: part ++ after →
    mark.toList.length ≤ part.length
  ends : k = .identifier ∨ k.isKeyword = true → EndsWord after

end

namespace Kind

/-- The kinds of punctuation marks, keywords and names. -/
def isMarkOrWord (k : Kind) : Bool := k.text?.isSome || k == .identifier

theorem not_isKeyword_of_punctuationText? {k : Kind} (h : k.punctuationText?.isSome = true) :
    k.isKeyword = false ∧ k ≠ .identifier := by
  revert h
  cases k <;> decide

/-- The kind of a word: the keyword it spells, or a name if it spells none. -/
theorem ofKeyword?_cases (word : String) :
    ((ofKeyword? word).getD .identifier).keywordText? = some word ∨
      (ofKeyword? word).getD .identifier = .identifier ∧
        ∀ k : Kind, k.keywordText? ≠ some word := by
  cases hk : ofKeyword? word with
  | some k => exact .inl (ofKeyword?_eq_some_iff.mp hk)
  | none => exact .inr ⟨rfl, ofKeyword?_eq_none_iff.mp hk⟩

theorem isMarkOrWord_of_isKeyword {k : Kind} (h : k.isKeyword = true) :
    k.isMarkOrWord = true := by
  revert h
  cases k <;> decide

/-- Nothing is asked of the other kinds. -/
theorem spelled_of_not_isMarkOrWord [Alphabet] {k : Kind} (h : k.isMarkOrWord = false)
    (part after : List Char) : Spelled k part after := by
  have htext : k.text? = none := by
    cases htext : k.text? <;> simp_all [isMarkOrWord]
  have hname : k ≠ .identifier := by
    rintro rfl
    cases h
  constructor
  · intro text hsome
    cases htext.symm.trans hsome
  · exact fun hk => absurd hk hname
  · intro hmark
    rw [text?, Option.or_eq_none_iff] at htext
    simp [htext.1] at hmark
  · rintro (hk | hk)
    · exact absurd hk hname
    · rw [isMarkOrWord_of_isKeyword hk] at h
      cases h

end Kind

namespace Lexeme
variable [Alphabet]

/-- A word goes on as far as it can. -/
theorem endsWord_drop (text : List Char) : EndsWord (text.drop (wordLength text)) := by
  fun_induction wordLength text with
  | case1 rest ih => exact ih
  | case2 c rest _ _ ih => exact ih
  | case3 c rest hescape hpart =>
    refine ⟨fun d hd => ?_, fun hbegins => ?_⟩
    · obtain rfl : c = d := by simpa using hd
      simpa using hpart
    · obtain ⟨tail, htail⟩ := hbegins
      obtain ⟨rfl, rfl⟩ := List.cons.inj htail
      exact hescape tail rfl rfl
  | case4 => exact ⟨by simp, by simp⟩

/-- Marks and words have readers of their own. -/
theorem Reads.mark_or_word {c : Char} {rest : List Char} {l : Lexeme} (h : Reads c rest l) :
    l = Lexeme.mark c rest ∨ startsWord c rest = true ∧ l = Lexeme.word c rest ∨
      l.kind.isMarkOrWord = false := by
  cases h with
  | lineEnd | blank | string | regExp => exact .inr (.inr rfl)
  | xmlAttribute =>
    refine .inr (.inr ?_)
    rcases xmlAttribute_kind rest with hk | hk <;> rw [hk] <;> rfl
  | number =>
    refine .inr (.inr ?_)
    rcases number_kind c rest with hk | hk | hk <;> rw [hk] <;> rfl
  | word hc => exact .inr (.inl ⟨hc, rfl⟩)
  | comment _ h =>
    refine .inr (.inr ?_)
    rcases comment?_kind h with hk | hk <;> rw [hk] <;> rfl
  | mark => exact .inl rfl

/-- Lexeme `l` at the beginning of `text` is spelled as its kind asks. -/
def IsSpelled (l : Lexeme) (text : List Char) : Prop :=
  Spelled l.kind (text.take l.size) (text.drop l.size)

theorem mark_isSpelled (c : Char) (rest : List Char) : (mark c rest).IsSpelled (c :: rest) := by
  have hread := mark_readable c rest
  unfold IsSpelled
  cases hk : Operator.read? c (c :: rest) with
  | none =>
    have hmark : mark c rest = invalid := by simp [mark, hk]
    rw [hmark]
    exact Kind.spelled_of_not_isMarkOrWord rfl _ _
  | some op =>
    obtain ⟨⟨text, htext, -, hlength⟩, hlongest⟩ := Operator.read?_eq_some_iff.mp hk
    have hkind : (mark c rest).kind = op.1 := by simp [mark, hk]
    have hkeyword := Kind.not_isKeyword_of_punctuationText? (k := op.1) (by rw [htext]; rfl)
    have htake := hread.take_size text (by rw [hkind, Kind.text?, htext]; rfl)
    rw [hkind, htake]
    constructor
    · intro mark hmark
      rw [Kind.text?, htext, Option.some_or] at hmark
      rw [Option.some.inj hmark]
    · exact fun hname => absurd hname hkeyword.2
    · intro _ k' mark hmark hbegins
      rw [← htake, List.take_append_drop] at hbegins
      rw [hlength]
      exact hlongest k' mark hmark hbegins
    · rintro (hname | hword)
      · exact absurd hname hkeyword.2
      · rw [hkeyword.1] at hword
        cases hword

theorem word_isSpelled (c : Char) (rest : List Char) : (word c rest).IsSpelled (c :: rest) := by
  have hread := word_readable c rest
  have hcases := Kind.ofKeyword?_cases (String.ofList ((c :: rest).take (word c rest).size))
  unfold IsSpelled
  constructor
  · exact hread.take_size
  · intro hname
    rcases hcases with hcases | ⟨-, hcases⟩
    · have hkind : (word c rest).kind.keywordText? = some _ := hcases
      rw [hname] at hkind
      cases hkind
    · exact hcases
  · intro hmark
    rcases hcases with hcases | ⟨hcases, -⟩
    · have hkind : (word c rest).kind.keywordText? = some _ := hcases
      have hnone := (keyword_isReadable (by rw [hkind]; rfl)).2
      rw [hnone] at hmark
      cases hmark
    · have hkind : (word c rest).kind = .identifier := hcases
      rw [hkind] at hmark
      cases hmark
  · intro _
    exact endsWord_drop _

theorem next_isSpelled (xmlLiterals afterOperand : Bool) (modes : List Mode) (c : Char)
    (rest : List Char) :
    (next xmlLiterals afterOperand modes c rest).1.IsSpelled (c :: rest) := by
  rcases next_cases xmlLiterals afterOperand modes c rest with hreads | ⟨state, outer, -, htext⟩
  · rcases hreads.mark_or_word with h | ⟨-, h⟩ | h
    · rw [h]
      exact mark_isSpelled c rest
    · rw [h]
      exact word_isSpelled c rest
    · exact Kind.spelled_of_not_isMarkOrWord h _ _
  · rw [htext]
    refine Kind.spelled_of_not_isMarkOrWord ?_ _ _
    rcases xmlText_kind state outer c rest with hk | hk <;> rw [hk] <;> rfl

end Lexeme

/-- Every token is spelled as its kind asks, and takes as much of the text as it can. -/
theorem tokenize_spelled [Alphabet] {text : String} {xmlLiterals : Bool} {i : Nat} {t : Token}
    (h : (tokenize text xmlLiterals).tokens[i]? = some t) :
    ∃ before after, text.toList = before ++ (t.text.toList ++ after) ∧
      (String.ofList before).utf8ByteSize =
        (Offsets.ofTokens (tokenize text xmlLiterals).tokens).get i ∧
      Spelled t.kind t.text.toList after :=
  tokenize_lexical (Lexeme.next_isSpelled xmlLiterals) h

/-- A shift of four characters, although the text there begins with four shorter operators. -/
theorem tokenize_spelled_shift : ∃ t : Token, (tokenize "a>>>=b" true).tokens[1]? = some t ∧
    t.text = ">>>=" ∧
      ∃ after, Spelled .greaterThanGreaterThanGreaterThanEquals ">>>=".toList after := by
  have htoken : (tokenize "a>>>=b" true).tokens[1]? =
      some ⟨.greaterThanGreaterThanGreaterThanEquals, ">>>=", 1, 1, 1, false, false⟩ := by rfl
  obtain ⟨_, after, -, -, hspelled⟩ := tokenize_spelled htoken
  exact ⟨_, htoken, rfl, after, hspelled⟩

end ScriptTree
