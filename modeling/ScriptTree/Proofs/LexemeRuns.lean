import ScriptTree.Proofs.LexemeLocality
import ScriptTree.Proofs.TextCut

/-!
Runs of lexemes. What a scan reads from a place on is told by the text there, the modes, and whether
an operand has just ended. So two texts are read alike from places that agree in these, and a place
before a point or a colon is met whatever stands after that mark.
-/
namespace ScriptTree
open CharClass

/-- Whether an operand ends with the last significant token, when one of kind `k` has come last. -/
def Kind.operandAfter (k : Kind) (operand : Bool) : Bool :=
  if k.isHidden then operand else k.endsOperand

/-- What lies ahead of a scan, as far as it bears on the lexemes there. -/
structure Ahead where
  rest : List Char
  modes : List Mode
  afterOperand : Bool

section
variable [Alphabet]

/-- Lexemes of these kinds and texts are read from one place of a scan to another. -/
inductive Passes (xmlLiterals : Bool) : Ahead → List (Kind × List Char) → Ahead → Prop where
  | refl : Passes xmlLiterals s [] s
  | step : Lexeme.next xmlLiterals operand modes c rest = (l, modes') →
      Passes xmlLiterals ⟨(c :: rest).drop l.size, modes', l.kind.operandAfter operand⟩ ts s →
      Passes xmlLiterals ⟨c :: rest, modes, operand⟩ ((l.kind, (c :: rest).take l.size) :: ts) s

/-- The kind of a token and how it is written. -/
def Token.written (t : Token) : Kind × List Char := (t.kind, t.text.toList)

namespace Scan

theorem afterOperand_take (xmlLiterals : Bool) (s : Scan) (c : Char) (rest : List Char) :
    (take xmlLiterals s c rest).1.afterOperand =
      (Lexeme.next xmlLiterals s.afterOperand s.modes c rest).1.kind.operandAfter
        s.afterOperand := by
  have hpush (l : Lexeme) (part : List Char) :
      (s.push l part).afterOperand = l.kind.operandAfter s.afterOperand := by
    unfold push Kind.operandAfter
    dsimp only
    cases l.kind.isHidden <;> cases l.fault <;> rfl
  exact hpush _ _

theorem cut_passes (xmlLiterals : Bool) (skip : Nat) (text : List Char) (s : Scan) :
    ∃ ts modes operand, Passes xmlLiterals ⟨text.drop skip, s.modes, s.afterOperand⟩ ts
      ⟨[], modes, operand⟩ ∧
      (cut (take xmlLiterals) pass skip text s).tokens.toList.map Token.written =
        s.tokens.toList.map Token.written ++ ts := by
  induction text generalizing skip s with
  | nil =>
    refine ⟨[], s.modes, s.afterOperand, ?_, ?_⟩
    · rw [List.drop_nil]
      exact .refl
    · cases skip <;> simp [cut]
  | cons c rest ih =>
    cases skip with
    | succ skip => exact ih skip (s.pass c rest.head?)
    | zero =>
      obtain ⟨ts, modes, operand, hread, htokens⟩ :=
        ih (take xmlLiterals s c rest).2 ((take xmlLiterals s c rest).1.pass c rest.head?)
      refine ⟨_ :: ts, modes, operand, .step (Prod.eta _).symm ?_, ?_⟩
      · rw [← s.afterOperand_take xmlLiterals c rest,
          ← Lexeme.next_more_add_one xmlLiterals s.afterOperand s.modes c rest, List.drop_succ_cons]
        exact hread
      · rw [cut]
        dsimp only
        rw [htokens]
        have hpush : ((take xmlLiterals s c rest).1.pass c rest.head?).tokens =
            s.tokens.push (s.nextToken xmlLiterals c rest) := s.take_tokens xmlLiterals c rest
        rw [hpush, Array.toList_push, List.map_append, List.append_assoc]
        simp [Token.written, nextToken, tokenOf]

end Scan

/-- The tokens of a text are the lexemes that are read from its beginning to its end. -/
theorem tokenize_passes (text : String) (xmlLiterals : Bool) : ∃ modes operand,
    Passes xmlLiterals ⟨text.toList, [], false⟩
      ((tokenize text xmlLiterals).tokens.toList.map Token.written) ⟨[], modes, operand⟩ := by
  obtain ⟨ts, modes, operand, hread, htokens⟩ := Scan.cut_passes xmlLiterals 0 text.toList {}
  rw [tokenize_tokens, htokens]
  exact ⟨modes, operand, hread⟩

namespace Passes
variable {xmlLiterals : Bool} {s s' s'' : Ahead} {ts us : List (Kind × List Char)}

theorem eq_of_nil (h : Passes xmlLiterals s [] s') : s = s' := by
  cases h
  rfl

theorem trans (h : Passes xmlLiterals s ts s') (h' : Passes xmlLiterals s' us s'') :
    Passes xmlLiterals s (ts ++ us) s'' := by
  induction h with
  | refl => exact h'
  | step hnext _ ih => exact .step hnext (ih h')

theorem split (h : Passes xmlLiterals s (ts ++ us) s'') :
    ∃ s', Passes xmlLiterals s ts s' ∧ Passes xmlLiterals s' us s'' := by
  induction ts generalizing s with
  | nil => exact ⟨s, .refl, h⟩
  | cons x ts ih =>
    cases h with
    | step hnext h =>
      obtain ⟨s', hread, h⟩ := ih h
      exact ⟨s', .step hnext hread, h⟩

/-- The texts of the lexemes stand between the two places. -/
theorem rest_eq (h : Passes xmlLiterals s ts s') :
    s.rest = ts.flatMap Prod.snd ++ s'.rest := by
  induction h with
  | refl => rfl
  | step _ _ ih =>
    dsimp only at ih
    rw [List.flatMap_cons, List.append_assoc, ← ih, List.take_append_drop]

/-- What is read from a place on is determined by it, so that a run to the end of the text goes on
where another one stops. -/
theorem resume (h : Passes xmlLiterals s ts s') (h' : Passes xmlLiterals s us s'')
    (hend : s''.rest = []) : ∃ later, us = ts ++ later ∧ Passes xmlLiterals s' later s'' := by
  induction h generalizing us with
  | refl => exact ⟨us, rfl, h'⟩
  | step hnext _ ih =>
    cases h' with
    | refl => cases hend
    | step hnext' h' =>
      obtain ⟨rfl, rfl⟩ := Prod.mk.inj (hnext.symm.trans hnext')
      obtain ⟨later, rfl, hlater⟩ := ih h'
      exact ⟨later, rfl, hlater⟩

theorem unique (h : Passes xmlLiterals s ts s') (h' : Passes xmlLiterals s us s'')
    (hend : s'.rest = []) (hend' : s''.rest = []) : us = ts := by
  obtain ⟨later, rfl, hlater⟩ := h.resume h' hend'
  cases hlater with
  | refl => exact List.append_nil ts
  | step => cases hend

section
variable {modes modes' : List Mode} {operand operand' : Bool} {l : Lexeme} {c : Char}
  {p w : List Char}

omit [Alphabet] in
theorem take_size_append (h : l.size ≤ (c :: p).length) (w : List Char) :
    (c :: (p ++ w)).take l.size = (c :: p).take l.size := by
  rw [← List.cons_append, List.take_append_of_le_length h]

omit [Alphabet] in
theorem drop_size_append (h : l.size ≤ (c :: p).length) (w : List Char) :
    (c :: (p ++ w)).drop l.size = (c :: p).drop l.size ++ w := by
  rw [← List.cons_append, List.drop_append_of_le_length h]

/-- A lexeme is read that ends before `w`, and then others are. -/
theorem cons (hle : l.size ≤ (c :: p).length)
    (hnext : Lexeme.next xmlLiterals operand modes c (p ++ w) = (l, modes'))
    (h : Passes xmlLiterals ⟨(c :: p).drop l.size ++ w, modes', l.kind.operandAfter operand⟩ ts s) :
    Passes xmlLiterals ⟨c :: p ++ w, modes, operand⟩ ((l.kind, (c :: p).take l.size) :: ts) s := by
  rw [← drop_size_append hle w] at h
  rw [← take_size_append hle w]
  exact .step hnext h

/-- One lexeme is read, up to `w`. -/
theorem single (hnext : Lexeme.next xmlLiterals operand modes c (p ++ w) = (l, modes'))
    (hsize : l.size = (c :: p).length) :
    Passes xmlLiterals ⟨c :: p ++ w, modes, operand⟩ [(l.kind, c :: p)]
      ⟨w, modes', l.kind.operandAfter operand⟩ := by
  have hread := cons (Nat.le_of_eq hsize) hnext .refl
  rwa [hsize, List.drop_length, List.take_length] at hread

/-- When lexemes are read up to `w`, the first of them ends before `w`. -/
theorem exists_cons {x : Kind × List Char} {t : List Char}
    (h : Passes xmlLiterals ⟨t ++ w, modes, operand⟩ (x :: ts) ⟨w, modes', operand'⟩) :
    ∃ c p l modes₁, t = c :: p ∧ l.size ≤ (c :: p).length ∧ x = (l.kind, (c :: p).take l.size) ∧
      Lexeme.next xmlLiterals operand modes c (p ++ w) = (l, modes₁) ∧
      Passes xmlLiterals ⟨(c :: p).drop l.size ++ w, modes₁, l.kind.operandAfter operand⟩ ts
        ⟨w, modes', operand'⟩ := by
  generalize htext : t ++ w = text at h
  cases h with
  | @step _ _ c rest l modes₁ _ _ hnext h =>
    have hle : l.size ≤ t.length := by
      have hlength := congrArg List.length h.rest_eq
      have hsize := Lexeme.next_size_le xmlLiterals operand modes c rest
      rw [hnext] at hsize
      rw [← htext] at hlength hsize
      simp only [List.length_drop, List.length_append] at hlength hsize
      omega
    cases t with
    | nil =>
      have hpos := Lexeme.next_size_pos xmlLiterals operand modes c rest
      rw [hnext] at hpos
      exact absurd hle (Nat.not_le_of_lt hpos)
    | cons c' p =>
      rw [List.cons_append] at htext
      obtain ⟨rfl, rfl⟩ := List.cons.inj htext
      rw [drop_size_append hle w] at h
      rw [take_size_append hle w]
      exact ⟨c', p, l, modes₁, rfl, hle, rfl, hnext, h⟩

end

/-- Lexemes before a point or a colon are read whatever stands after that mark. -/
theorem before_mark {d : Char} (hd : d = '.' ∨ d = ':') {p v : List Char}
    {modes modes' : List Mode} {operand operand' : Bool}
    (h : Passes xmlLiterals ⟨p ++ d :: v, modes, operand⟩ ts ⟨d :: v, modes', operand'⟩)
    (v' : List Char) :
    Passes xmlLiterals ⟨p ++ d :: v', modes, operand⟩ ts ⟨d :: v', modes', operand'⟩ := by
  induction ts generalizing p modes operand with
  | nil =>
    obtain ⟨hrest, rfl, rfl⟩ := Ahead.mk.inj h.eq_of_nil
    obtain rfl : p = [] := by simpa using hrest
    exact .refl
  | cons x ts ih =>
    obtain ⟨c, p, l, modes₁, rfl, hle, rfl, hnext, h⟩ := h.exists_cons
    have hmore : l.more ≤ p.length := Nat.sub_le_of_le_add hle
    have hnext' := Lexeme.next_local hd (by rw [hnext]; exact hmore) v'
    exact .cons hle (hnext'.trans hnext) (ih h)

end Passes

end
end ScriptTree
