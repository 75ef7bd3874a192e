import ScriptTree.Lexeme.Next
import ScriptTree.Proofs.SpellingTables

/-!
The reader that a lexeme comes from. A lexeme is XML text or comes from one of the readers for the
rest of the language, so that what is true of each reader is true of all lexemes.
-/
namespace ScriptTree.Lexeme
open CharClass

section
variable [Alphabet]

/-- A lexeme that is no XML text, by its reader and by what the reader asks of the text. -/
inductive Reads (c : Char) (rest : List Char) : Lexeme → Prop where
  | lineEnd : isLineBreak c = true → Reads c rest
      { kind := .eol, size := if c == '\r' && rest.head? == some '\n' then 2 else 1 }
  | blank : isBlank c = true → Reads c rest
      { kind := .whiteSpace, size := 1 + runLength isBlank rest }
  | string : c = '"' ∨ c = '\'' → Reads c rest (string c rest)
  | xmlAttribute : c = '@' → Reads c rest (xmlAttribute rest)
  | number : (isDigit c || (c == '.' && rest.head?.any isDigit)) = true →
      Reads c rest (number c rest)
  | word : startsWord c rest = true → Reads c rest (word c rest)
  | comment : c = '/' → comment? rest = some l → Reads c rest l
  | regExp : c = '/' → comment? rest = none → Reads c rest (regExp rest)
  | mark : Reads c rest (mark c rest)

theorem slash_reads (afterOperand : Bool) (rest : List Char) :
    Reads '/' rest (slash afterOperand rest) := by
  unfold slash
  split
  · exact .comment rfl (by assumption)
  · split
    · exact .mark
    · exact .regExp rfl (by assumption)

theorem plain_reads (afterOperand : Bool) (c : Char) (rest : List Char) :
    Reads c rest (plain afterOperand c rest) := by
  unfold plain
  split
  · exact .lineEnd (by assumption)
  split
  · exact .blank (by assumption)
  split
  · rename_i hquote
    exact .string (by simpa using hquote)
  split
  · rename_i hat
    exact .xmlAttribute (by simpa using hat)
  split
  · exact .number (by assumption)
  split
  · exact .word (by assumption)
  split
  · rename_i hslash
    obtain rfl : c = '/' := by simpa using hslash
    exact slash_reads afterOperand rest
  · exact .mark

theorem ordinary_cases (xmlLiterals afterOperand : Bool) (modes : List Mode) (c : Char)
    (rest : List Char) :
    Reads c rest (ordinary xmlLiterals afterOperand modes c rest).1 ∨
      ∃ (state : XmlState) (outer : List Mode), (c == '{' && state.quote.isNone) = false ∧
        ordinary xmlLiterals afterOperand modes c rest = xmlText state outer c rest := by
  unfold ordinary
  split
  · exact .inl .mark
  rename_i hopen
  split
  · exact .inl .mark
  split
  · exact .inr ⟨{}, modes, by simpa using hopen, rfl⟩
  · exact .inl (plain_reads afterOperand c rest)

/-- A lexeme has one of the readers or is XML text, which does not begin with a brace where it
would embed an expression. -/
theorem next_cases (xmlLiterals afterOperand : Bool) (modes : List Mode) (c : Char)
    (rest : List Char) :
    Reads c rest (next xmlLiterals afterOperand modes c rest).1 ∨
      ∃ (state : XmlState) (outer : List Mode), (c == '{' && state.quote.isNone) = false ∧
        next xmlLiterals afterOperand modes c rest = xmlText state outer c rest := by
  unfold next
  split
  · rename_i state outer
    split
    · exact ordinary_cases ..
    · rename_i hbrace
      exact .inr ⟨state, outer, Bool.eq_false_iff.mpr hbrace, rfl⟩
  · exact ordinary_cases ..

/-! The kinds that the readers give. -/

/-- A word is a keyword or a name. -/
theorem word_kind (c : Char) (rest : List Char) :
    (word c rest).kind = .identifier ∨ (word c rest).kind.keywordText?.isSome = true := by
  unfold word
  dsimp only
  cases hk : Kind.ofKeyword? (String.ofList ((c :: rest).take (wordLength (c :: rest)))) with
  | none => exact .inl rfl
  | some k =>
    refine .inr ?_
    rw [Option.getD_some, Kind.ofKeyword?_eq_some_iff.mp hk]
    rfl

theorem xmlAttribute_kind (rest : List Char) :
    (xmlAttribute rest).kind = .xmlAttribute ∨ (xmlAttribute rest).kind = .unknown := by
  unfold xmlAttribute
  repeat' split
  all_goals simp [invalid]

end

theorem number_kind (c : Char) (rest : List Char) :
    (number c rest).kind = .decimalLiteral ∨ (number c rest).kind = .hexIntegerLiteral ∨
      (number c rest).kind = .octalIntegerLiteral := by
  unfold number
  dsimp only
  repeat' split
  all_goals simp

theorem comment?_kind {rest : List Char} {l : Lexeme} (h : comment? rest = some l) :
    l.kind = .singleLineComment ∨ l.kind = .multiLineComment := by
  unfold comment? at h
  split at h <;> cases h <;> simp [delimited]

theorem xmlText_kind (state : XmlState) (outer : List Mode) (c : Char) (rest : List Char) :
    (xmlText state outer c rest).1.kind = .xmlFragment ∨
      (xmlText state outer c rest).1.kind = .xmlFragmentEnd := by
  unfold xmlText
  split <;> simp

end ScriptTree.Lexeme
