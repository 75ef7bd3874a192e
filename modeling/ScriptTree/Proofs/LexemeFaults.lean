import ScriptTree.Proofs.LexemeBounds

/-!
What may be wrong with a lexeme. Its kind tells, and which reader it comes from wherever something
may be wrong with it at all.
-/
namespace ScriptTree

/-- What may be wrong with a token of a kind. -/
def Kind.fault? : Kind → Option LexicalFault
  | .unknown => some .invalidCharacter
  | .stringLiteral => some .unterminatedString
  | .multiLineComment => some .unterminatedComment
  | .regularExpressionLiteral => some .unterminatedRegularExpression
  | .xmlFragmentEnd => some .unterminatedXml
  | _ => none

/-- Tokens that reach as far as their delimiters do. -/
def Kind.isDelimited : Kind → Bool
  | .singleLineComment | .multiLineComment | .stringLiteral | .regularExpressionLiteral => true
  | _ => false

/-- Tokens with which nothing can be wrong, and which end without a delimiter. -/
def Kind.isFaultless (k : Kind) : Bool :=
  k.fault?.isNone && !k.isDelimited && k != .xmlFragment

namespace Lexeme

theorem isFaultless_of_text? {k : Kind} (h : k.text?.isSome = true) : k.isFaultless = true := by
  cases k <;> first | rfl | cases h

/-- A lexeme of a kind that has no faults. -/
def IsSound (l : Lexeme) : Prop := l.fault = none ∧ l.kind.isFaultless = true

theorem mark_isSound (c : Char) (rest : List Char) :
    (mark c rest).IsSound ∨ mark c rest = invalid := by
  unfold mark
  split
  · rename_i k n hk
    obtain ⟨text, htext, -⟩ := Operator.read?_begins hk
    exact .inl ⟨rfl, isFaultless_of_text? (by simp [Kind.text?, htext])⟩
  · exact .inr rfl

theorem word_isSound [Alphabet] (c : Char) (rest : List Char) : (word c rest).IsSound := by
  unfold word
  dsimp only
  cases hk : Kind.ofKeyword? (String.ofList ((c :: rest).take (wordLength (c :: rest)))) with
  | none => exact ⟨rfl, rfl⟩
  | some k =>
    have hspelled := Kind.ofKeyword?_eq_some_iff.mp hk
    exact ⟨rfl, isFaultless_of_text? (by simp [Kind.text?, hspelled])⟩

theorem number_isSound (c : Char) (rest : List Char) : (number c rest).IsSound := by
  unfold number
  dsimp only
  repeat' split
  all_goals exact ⟨rfl, rfl⟩

theorem xmlAttribute_isSound [Alphabet] (rest : List Char) :
    (xmlAttribute rest).IsSound ∨ xmlAttribute rest = invalid := by
  unfold xmlAttribute
  split
  · exact .inl ⟨rfl, rfl⟩
  · split
    · exact .inl ⟨rfl, rfl⟩
    · exact .inr rfl
  · exact .inr rfl

/-- Only strings, comments and regular expressions may lack a delimiter. -/
theorem Reads.sound_or_delimited [Alphabet] {c : Char} {rest : List Char} {l : Lexeme}
    (h : Reads c rest l) :
    l.IsSound ∨ l = invalid ∨ (c = '"' ∨ c = '\'') ∧ l = Lexeme.string c rest ∨
      c = '/' ∧ (comment? rest = some l ∨ comment? rest = none ∧ l = Lexeme.regExp rest) := by
  cases h with
  | lineEnd | blank => exact .inl ⟨rfl, rfl⟩
  | string hc => exact .inr (.inr (.inl ⟨hc, rfl⟩))
  | xmlAttribute =>
    rcases xmlAttribute_isSound rest with h | h
    · exact .inl h
    · exact .inr (.inl h)
  | number => exact .inl (number_isSound c rest)
  | word => exact .inl (word_isSound c rest)
  | comment hc h => exact .inr (.inr (.inr ⟨hc, .inl h⟩))
  | regExp hc h => exact .inr (.inr (.inr ⟨hc, .inr ⟨h, rfl⟩⟩))
  | mark =>
    rcases mark_isSound c rest with h | h
    · exact .inl h
    · exact .inr (.inl h)

/-- The fault of a lexeme, if it has one, is that of its kind. An invalid character always has one,
other lexemes where a delimiter is missing. -/
def IsBlamed (l : Lexeme) : Prop :=
  l.fault = if l.kind = .unknown ∨ l.isUnterminated = true then l.kind.fault? else none

theorem IsSound.isBlamed {l : Lexeme} (h : l.IsSound) : l.IsBlamed := by
  obtain ⟨hfault, hkind⟩ := h
  have hknown : l.kind ≠ .unknown := by
    intro hunknown
    simp [hunknown, Kind.isFaultless, Kind.fault?] at hkind
  simp [IsBlamed, hfault, hknown, Reading.isUnterminated]

theorem delimited_isBlamed {kind : Kind} {fault : LexicalFault} (hkind : kind.fault? = some fault)
    (hfault : fault.isUnterminated = true) (e : Extent) :
    (delimited kind fault e).IsBlamed := by
  have hknown : kind ≠ .unknown := by
    rintro rfl
    cases hkind
    cases hfault
  cases hclosed : e.closed <;>
    simp [IsBlamed, delimited, Reading.delimited, Reading.isUnterminated, hclosed, hknown, hkind,
      hfault]

theorem comment?_isBlamed {rest : List Char} {l : Lexeme} (h : comment? rest = some l) :
    l.IsBlamed := by
  unfold comment? at h
  split at h
  · cases h
    simp [IsBlamed, Reading.isUnterminated]
  · cases h
    exact delimited_isBlamed rfl rfl _
  · cases h

theorem xmlText_isBlamed (state : XmlState) (outer : List Mode) (c : Char) (rest : List Char) :
    (xmlText state outer c rest).1.IsBlamed := by
  unfold xmlText
  split <;> simp [IsBlamed, Reading.isUnterminated, Kind.fault?, LexicalFault.isUnterminated]

theorem next_isBlamed [Alphabet] (xmlLiterals afterOperand : Bool) (modes : List Mode) (c : Char)
    (rest : List Char) : (next xmlLiterals afterOperand modes c rest).1.IsBlamed := by
  rcases next_cases xmlLiterals afterOperand modes c rest with hreads | ⟨state, outer, -, htext⟩
  · rcases hreads.sound_or_delimited with h | h | ⟨-, h⟩ | ⟨-, h | ⟨-, h⟩⟩
    · exact h.isBlamed
    · rw [h]
      simp [IsBlamed, invalid, Reading.invalid, Kind.fault?]
    · rw [h]
      exact delimited_isBlamed rfl rfl _
    · exact comment?_isBlamed h
    · rw [h]
      exact delimited_isBlamed rfl rfl _
  · rw [htext]
    exact xmlText_isBlamed state outer c rest

/-- A lexeme without its delimiter is of a kind that may lack one. -/
theorem isSome_fault?_of_isUnterminated {l : Lexeme} (h : l.IsBlamed)
    (hopen : l.isUnterminated = true) : l.kind.fault?.isSome = true := by
  unfold IsBlamed at h
  rw [if_pos (.inr hopen)] at h
  rw [← h]
  unfold Reading.isUnterminated at hopen
  cases hfault : l.fault with
  | none => simp [hfault] at hopen
  | some => rfl

end Lexeme
end ScriptTree
