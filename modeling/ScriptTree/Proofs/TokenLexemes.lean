import ScriptTree.Proofs.LexemeFaults
import ScriptTree.Proofs.TokenPlaces

/-!
Tokens and their lexemes. Every token of a text is made of a lexeme that is read where the tokens
before it end, so that what is true of all lexemes is true of all tokens.
-/
namespace ScriptTree

/-- Token `t` is made of lexeme `l` at the beginning of `text`. -/
structure Token.MadeOf (t : Token) (l : Lexeme) (text : List Char) : Prop where
  kind_eq : t.kind = l.kind
  text_eq : t.text.toList = text.take l.size
  unterminated_eq : t.unterminated = l.isUnterminated
  unflagged : t.isHidden = true → t.lineBreakBefore = false

namespace Scan

theorem tokenOf_madeOf (s : Scan) (l : Lexeme) (text : List Char) :
    (s.tokenOf l (text.take l.size)).MadeOf l text := by
  constructor
  · rfl
  · exact String.toList_ofList
  · rfl
  · intro hhidden
    have hhidden : l.kind.isHidden = true := hhidden
    simp [tokenOf, hhidden]

/-- What is true of a scan that has read each of its tokens as a lexeme. -/
structure Lexed [Alphabet] (xmlLiterals : Bool) (text : String) (skip : Nat)
    (rest : List Char) (s : Scan) : Prop extends s.Stands text skip rest where
  lexemes : ∀ (i : Nat) (t : Token), s.tokens[i]? = some t → ∃ afterOperand modes c rest,
    (s.tokens.toList.take i).flatMap (·.text.toList) ++ c :: rest = text.toList ∧
      t.MadeOf (Lexeme.next xmlLiterals afterOperand modes c rest).1 (c :: rest)

variable [Alphabet] {xmlLiterals : Bool} {text : String} {skip : Nat} {c : Char}
  {rest : List Char} {s : Scan}

theorem Lexed.take (h : s.Lexed xmlLiterals text 0 (c :: rest)) :
    (Scan.take xmlLiterals s c rest).1.Lexed xmlLiterals text
      ((Scan.take xmlLiterals s c rest).2 + 1) (c :: rest) where
  toStands := h.toStands.take xmlLiterals
  lexemes := by
    rw [s.take_tokens]
    apply forall_push (P := fun before t => ∃ afterOperand modes c rest,
      before.flatMap (·.text.toList) ++ c :: rest = text.toList ∧
        t.MadeOf (Lexeme.next xmlLiterals afterOperand modes c rest).1 (c :: rest)) h.lexemes
    obtain ⟨before, happend, -, htexts⟩ := h.position
    obtain rfl : texts s.tokens = before := by simpa using htexts
    exact ⟨s.afterOperand, s.modes, c, rest, happend, s.tokenOf_madeOf _ _⟩

theorem Lexed.pass (h : s.Lexed xmlLiterals text (skip + 1) (c :: rest)) :
    (s.pass c rest.head?).Lexed xmlLiterals text skip rest where
  toStands := h.toStands.pass
  lexemes := h.lexemes

end Scan

/-- Every token is made of the lexeme at its place. -/
theorem tokenize_madeOf [Alphabet] {text : String} {xmlLiterals : Bool} {i : Nat} {t : Token}
    (h : (tokenize text xmlLiterals).tokens[i]? = some t) : ∃ afterOperand modes c rest,
    ((tokenize text xmlLiterals).tokens.toList.take i).flatMap (·.text.toList) ++ c :: rest =
      text.toList ∧ t.MadeOf (Lexeme.next xmlLiterals afterOperand modes c rest).1 (c :: rest) := by
  have hstart : Scan.Lexed xmlLiterals text 0 text.toList {} := ⟨stands_start text, by simp⟩
  obtain ⟨left, hrun⟩ := cut_preserves_skip (P := Scan.Lexed xmlLiterals text)
    (fun _ _ _ h => h.take) (fun _ _ _ _ h => h.pass) 0 text.toList {} hstart
  rw [tokenize_tokens] at h ⊢
  exact hrun.lexemes i t h

/-- What is true of every lexeme and the text after it is true of every token. -/
theorem tokenize_lexical [Alphabet] {P : Kind → List Char → List Char → Prop}
    {xmlLiterals : Bool}
    (hnext : ∀ afterOperand modes c rest,
      let l := (Lexeme.next xmlLiterals afterOperand modes c rest).1
      P l.kind ((c :: rest).take l.size) ((c :: rest).drop l.size))
    {text : String} {i : Nat} {t : Token} (h : (tokenize text xmlLiterals).tokens[i]? = some t) :
    ∃ before after, text.toList = before ++ (t.text.toList ++ after) ∧
      (String.ofList before).utf8ByteSize =
        (Offsets.ofTokens (tokenize text xmlLiterals).tokens).get i ∧
      P t.kind t.text.toList after := by
  obtain ⟨afterOperand, modes, c, rest, htext, hmade⟩ := tokenize_madeOf h
  have hpart := hnext afterOperand modes c rest
  dsimp only at hpart
  rw [← hmade.kind_eq, ← hmade.text_eq] at hpart
  refine ⟨((tokenize text xmlLiterals).tokens.toList.take i).flatMap (·.text.toList), _, ?_, ?_,
    hpart⟩
  · rw [hmade.text_eq, List.take_append_drop]
    exact htext.symm
  · rw [Offsets.get_ofTokens, totalLength_eq]

end ScriptTree
