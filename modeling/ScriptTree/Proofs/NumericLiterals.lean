import ScriptTree.Proofs.FixedSpellings

/-!
Numeric literals. The kind of one is told by its text, and for octal ones also by the next
character: digits that are octal make a decimal literal before a letter with which an exponent could
begin, even if no exponent follows.
-/
namespace ScriptTree
open CharClass

/-- A hexadecimal literal, whose digits may be missing. -/
inductive HexText : List Char → Prop where
  | mk : x = 'x' ∨ x = 'X' → (∀ d ∈ digits, isHexDigit d = true) → HexText ('0' :: x :: digits)

/-- A zero with octal digits after it. -/
inductive OctalText : List Char → Prop where
  | mk : digits ≠ [] → (∀ d ∈ digits, isOctalDigit d = true) → OctalText ('0' :: digits)

/-- A point and digits, which may be missing, or nothing. -/
inductive FractionText : List Char → Prop where
  | none : FractionText []
  | point : (∀ d ∈ digits, isDigit d = true) → FractionText ('.' :: digits)

/-- A letter, perhaps a sign, and digits, or nothing. -/
inductive ExponentText : List Char → Prop where
  | none : ExponentText []
  | letter : e = 'e' ∨ e = 'E' → sign = [] ∨ sign = ['+'] ∨ sign = ['-'] → digits ≠ [] →
      (∀ d ∈ digits, isDigit d = true) → ExponentText (e :: (sign ++ digits))

/-- A decimal literal. There are digits before the point or after it. -/
inductive DecimalText : List Char → Prop where
  | mk : (∀ d ∈ whole, isDigit d = true) → FractionText fraction → ExponentText exponent →
      (whole ≠ [] ∨ ∃ d ∈ fraction, isDigit d = true) →
      DecimalText (whole ++ (fraction ++ exponent))

/-- An octal literal, where `after` does not begin with the letter of an exponent. -/
def OctalBefore (text after : List Char) : Prop :=
  OctalText text ∧ ∀ c, after.head? = some c → c ≠ 'e' ∧ c ≠ 'E'

/-- A numeric literal of kind `k` is written `text` before `after`. -/
structure NumberText (k : Kind) (text after : List Char) : Prop where
  hex_iff : k = .hexIntegerLiteral ↔ HexText text
  octal_iff : k = .octalIntegerLiteral ↔ OctalBefore text after
  decimal_iff : k = .decimalLiteral ↔
    ¬HexText text ∧ ¬OctalBefore text after ∧ DecimalText text

theorem isDigit_of_isOctalDigit {c : Char} (h : isOctalDigit c = true) : isDigit c = true := by
  simp only [isOctalDigit, isDigit, Bool.and_eq_true, decide_eq_true_eq] at h ⊢
  exact ⟨h.1, Char.le_trans h.2 (by decide)⟩

theorem HexText.not_octalText {text : List Char} (h : HexText text) : ¬OctalText text := by
  rintro ⟨-, hdigits⟩
  cases h with
  | mk hx _ =>
    have hoctal := hdigits _ List.mem_cons_self
    rcases hx with rfl | rfl <;> cases hoctal

/-- The characters of decimal literals. -/
def isDecimalPart (c : Char) : Bool :=
  isDigit c || c == '.' || c == 'e' || c == 'E' || c == '+' || c == '-'

theorem DecimalText.isDecimalPart {text : List Char} (h : DecimalText text) :
    ∀ c ∈ text, isDecimalPart c = true := by
  have hdigit {c : Char} (h : isDigit c = true) : ScriptTree.isDecimalPart c = true := by
    simp [ScriptTree.isDecimalPart, h]
  cases h with
  | mk hwhole hfraction hexponent _ =>
    intro c hc
    rcases List.mem_append.mp hc with hc | hc
    · exact hdigit (hwhole c hc)
    rcases List.mem_append.mp hc with hc | hc
    · cases hfraction with
      | none => cases hc
      | point hdigits =>
        rcases List.mem_cons.mp hc with rfl | hc
        · rfl
        · exact hdigit (hdigits c hc)
    · cases hexponent with
      | none => cases hc
      | letter he hsign _ hdigits =>
        rcases List.mem_cons.mp hc with rfl | hc
        · rcases he with rfl | rfl <;> rfl
        rcases List.mem_append.mp hc with hc | hc
        · rcases hsign with rfl | rfl | rfl
          · cases hc
          · rw [List.mem_singleton.mp hc]
            rfl
          · rw [List.mem_singleton.mp hc]
            rfl
        · exact hdigit (hdigits c hc)

theorem DecimalText.not_hexText {text : List Char} (h : DecimalText text) : ¬HexText text := by
  intro hhex
  cases hhex with
  | mk hx _ =>
    have hpart := h.isDecimalPart _ (List.mem_cons_of_mem _ List.mem_cons_self)
    rcases hx with rfl | rfl <;> cases hpart

theorem Kind.not_isNumericLiteral_of_text? {k : Kind} (h : k.text?.isSome = true) :
    k.isNumericLiteral = false := by
  revert h
  cases k <;> decide

namespace Lexeme

theorem fractionText_take (text : List Char) :
    FractionText (text.take (fractionLength text)) := by
  unfold fractionLength
  split
  · rw [Nat.add_comm, List.take_succ_cons, take_runLength]
    exact .point fun d => List.mem_takeWhile_imp
  · exact .none

/-- An exponent with the given sign, if it has digits. -/
theorem exponentText_signed {e : Char} {rest : List Char} {sign : Nat} (he : e = 'e' ∨ e = 'E')
    (hsign : rest.take sign = [] ∨ rest.take sign = ['+'] ∨ rest.take sign = ['-']) :
    let digits := runLength isDigit (rest.drop sign)
    ExponentText ((e :: rest).take (if digits == 0 then 0 else 1 + sign + digits)) := by
  intro digits
  split
  · exact .none
  · rename_i hdigits
    rw [Nat.add_assoc, Nat.add_comm 1, List.take_succ_cons, List.take_add, take_runLength]
    refine .letter he hsign ?_ fun d => List.mem_takeWhile_imp
    intro hnil
    simp [digits, runLength, hnil] at hdigits

theorem exponentText_take (text : List Char) :
    ExponentText (text.take (exponentLength text)) := by
  unfold exponentLength
  split
  · rename_i e rest
    split
    · rename_i he
      apply exponentText_signed (by simpa using he)
      cases rest with
      | nil => exact .inl rfl
      | cons c tail =>
        dsimp only
        split
        · rename_i hc
          simpa using hc
        · exact .inl rfl
    · exact .none
  · exact .none

theorem decimalText_take {c : Char} {rest : List Char}
    (h : (isDigit c || (c == '.' && rest.head?.any isDigit)) = true) :
    DecimalText ((c :: rest).take (decimalLength (c :: rest))) := by
  unfold decimalLength
  dsimp only
  rw [Nat.add_assoc, List.take_add, List.take_add, List.drop_drop, take_runLength]
  refine .mk (fun d => List.mem_takeWhile_imp) (fractionText_take _) (exponentText_take _) ?_
  simp only [Bool.or_eq_true, Bool.and_eq_true, beq_iff_eq] at h
  rcases h with h | ⟨rfl, h⟩
  · simp [h]
  · cases rest with
    | nil => cases h
    | cons d tail =>
      have hd : isDigit d = true := by simpa using h
      refine .inr ⟨d, ?_, hd⟩
      have hwhole : runLength isDigit ('.' :: d :: tail) = 0 := rfl
      rw [hwhole, List.drop_zero, fractionLength, Nat.add_comm, List.take_succ_cons,
        take_runLength, List.takeWhile_cons_of_pos hd]
      simp

/-- A decimal literal goes on over digits at its beginning. -/
theorem decimalLength_append {before : List Char} (h : ∀ c ∈ before, isDigit c = true)
    (after : List Char) :
    decimalLength (before ++ after) = before.length + decimalLength after := by
  unfold decimalLength
  dsimp only
  rw [runLength_append h, List.drop_length_add_append, Nat.add_assoc before.length,
    List.drop_length_add_append, Nat.add_assoc]

/-- An octal text at the beginning of a text is a zero and digits after it. -/
theorem octalText_take {c : Char} {rest : List Char} {n : Nat} (hle : n ≤ (c :: rest).length)
    (h : OctalText ((c :: rest).take n)) : c = '0' ∧ ∃ digits, digits ≠ [] ∧
      (∀ d ∈ digits, isOctalDigit d = true) ∧ rest = digits ++ (c :: rest).drop n ∧
      n = digits.length + 1 := by
  generalize htake : (c :: rest).take n = text at h
  obtain ⟨hne, hdigits⟩ := h
  rename_i digits
  have hsplit : c :: rest = '0' :: digits ++ (c :: rest).drop n := by
    rw [← htake, List.take_append_drop]
  have hlength : n = digits.length + 1 := by
    rw [← List.length_cons, ← htake, List.length_take, Nat.min_eq_left hle]
  obtain ⟨hc, hrest⟩ := List.cons.inj hsplit
  exact ⟨hc, digits, hne, hdigits, hrest, hlength⟩

/-- Octal digits that are read as decimal stand before the letter of an exponent. -/
theorem head?_of_octal_decimal {rest digits after : List Char}
    (hturns : ((rest.drop (runLength isOctalDigit rest)).head?.any turnsDecimal) = true)
    (hrest : rest = digits ++ after) (hdigits : ∀ d ∈ digits, isOctalDigit d = true)
    (hlength : decimalLength ('0' :: rest) = digits.length + 1) :
    after.head? = some 'e' ∨ after.head? = some 'E' := by
  have hzero : ∀ c ∈ '0' :: digits, isDigit c = true := by
    refine List.forall_mem_cons.mpr ⟨rfl, fun d hd => isDigit_of_isOctalDigit (hdigits d hd)⟩
  have hnone : decimalLength after = 0 := by
    have happend := decimalLength_append hzero after
    rw [List.cons_append, ← hrest, hlength, List.length_cons] at happend
    omega
  cases after with
  | nil =>
    rw [List.append_nil] at hrest
    subst hrest
    have hall : runLength isOctalDigit rest = rest.length := by
      conv_lhs => rw [← List.append_nil rest, runLength_append hdigits]
      rfl
    rw [hall, List.drop_length] at hturns
    cases hturns
  | cons c after =>
    have hnot : ¬(isDigit c = true ∨ c = '.') := fun hc =>
      Nat.ne_of_gt (decimalLength_pos after hc) hnone
    have hoctal : isOctalDigit c = false := by
      by_contra hc
      exact hnot (.inl (isDigit_of_isOctalDigit (by simpa using hc)))
    have hrun : runLength isOctalDigit rest = digits.length := by
      rw [hrest, runLength_append hdigits, runLength, List.takeWhile_cons, hoctal]
      rfl
    rw [hrun, hrest, List.drop_left] at hturns
    simp only [List.head?_cons, Option.any_some, turnsDecimal, Bool.or_eq_true,
      beq_iff_eq] at hturns
    obtain (((rfl | rfl) | rfl) | rfl) | rfl := hturns
    · exact absurd (.inl rfl) hnot
    · exact absurd (.inl rfl) hnot
    · exact absurd (.inr rfl) hnot
    · exact .inl rfl
    · exact .inr rfl

theorem decimal_numberText {c : Char} {rest : List Char}
    (h : (isDigit c || (c == '.' && rest.head?.any isDigit)) = true)
    (hoctal : ¬OctalBefore ((c :: rest).take (decimalLength (c :: rest)))
      ((c :: rest).drop (decimalLength (c :: rest)))) :
    NumberText .decimalLiteral ((c :: rest).take (decimalLength (c :: rest)))
      ((c :: rest).drop (decimalLength (c :: rest))) := by
  have hdecimal := decimalText_take h
  exact ⟨iff_of_false nofun hdecimal.not_hexText, iff_of_false nofun hoctal,
    iff_of_true rfl ⟨hdecimal.not_hexText, hoctal, hdecimal⟩⟩

theorem octal_numberText {digits after : List Char} (hne : digits ≠ [])
    (hdigits : ∀ d ∈ digits, isOctalDigit d = true)
    (hafter : after.head?.any turnsDecimal = false) :
    NumberText .octalIntegerLiteral ('0' :: digits) after := by
  have htext : OctalText ('0' :: digits) := .mk hne hdigits
  have hbefore : OctalBefore ('0' :: digits) after := by
    refine ⟨htext, fun c hc => ?_⟩
    rw [hc] at hafter
    constructor
    · rintro rfl
      cases hafter
    · rintro rfl
      cases hafter
  exact ⟨iff_of_false nofun fun hhex => hhex.not_octalText htext, iff_of_true rfl hbefore,
    iff_of_false nofun fun hdecimal => hdecimal.2.1 hbefore⟩

theorem hex_numberText {x : Char} {digits : List Char} (hx : x = 'x' ∨ x = 'X')
    (hdigits : ∀ d ∈ digits, isHexDigit d = true) (after : List Char) :
    NumberText .hexIntegerLiteral ('0' :: x :: digits) after := by
  have htext : HexText ('0' :: x :: digits) := .mk hx hdigits
  exact ⟨iff_of_true rfl htext, iff_of_false nofun fun hoctal => htext.not_octalText hoctal.1,
    iff_of_false nofun fun hdecimal => hdecimal.1 htext⟩

/-- Lexeme `l` at the beginning of `text` is a number as its kind tells. -/
def IsNumber (l : Lexeme) (text : List Char) : Prop :=
  NumberText l.kind (text.take l.size) (text.drop l.size)

theorem decimal_isNumber {c : Char} {rest : List Char}
    (h : (isDigit c || (c == '.' && rest.head?.any isDigit)) = true)
    (hoctal : ¬OctalBefore ((c :: rest).take (decimalLength (c :: rest)))
      ((c :: rest).drop (decimalLength (c :: rest)))) :
    IsNumber { kind := .decimalLiteral, size := decimalLength (c :: rest) } (c :: rest) :=
  decimal_numberText h hoctal

theorem number_isNumber {c : Char} {rest : List Char}
    (h : (isDigit c || (c == '.' && rest.head?.any isDigit)) = true) :
    (number c rest).IsNumber (c :: rest) := by
  unfold number
  dsimp only
  split
  · rename_i hzero
    obtain rfl : c = '0' := by simpa using hzero
    split
    · refine decimal_isNumber rfl fun hoctal => ?_
      obtain ⟨-, digits, hne, -, hrest, -⟩ := octalText_take (decimalLength_le _) hoctal.1
      exact hne (List.append_eq_nil_iff.mp hrest.symm).1
    · rename_i x digits
      split
      · rename_i hx
        have hsplit : ('0' :: x :: digits).take (2 + runLength isHexDigit digits) =
            '0' :: x :: digits.takeWhile isHexDigit := by
          rw [Nat.add_comm 2, List.take_succ_cons, List.take_succ_cons, take_runLength]
        unfold IsNumber
        rw [hsplit]
        exact hex_numberText (by simpa using hx) (fun d => List.mem_takeWhile_imp) _
      · rename_i hx
        split
        · rename_i hoctals
          refine decimal_isNumber rfl fun hoctal => ?_
          obtain ⟨-, octal, hne, hall, hrest, hlength⟩ :=
            octalText_take (decimalLength_le _) hoctal.1
          have hsome : runLength isOctalDigit (x :: digits) ≠ 0 := by
            rw [hrest, runLength_append hall]
            have := List.length_pos_iff.mpr hne
            omega
          simp only [Bool.or_eq_true, beq_iff_eq, hsome, false_or] at hoctals
          rcases head?_of_octal_decimal hoctals hrest hall hlength with hafter | hafter
          · exact (hoctal.2 _ hafter).1 rfl
          · exact (hoctal.2 _ hafter).2 rfl
        · rename_i hoctals
          simp only [Bool.or_eq_true, not_or, beq_iff_eq, Bool.not_eq_true] at hoctals
          unfold IsNumber
          rw [Nat.add_comm 1, List.take_succ_cons, List.drop_succ_cons, take_runLength]
          refine octal_numberText ?_ (fun d => List.mem_takeWhile_imp) hoctals.2
          intro hnil
          exact hoctals.1 (by rw [runLength, hnil]; rfl)
  · rename_i hzero
    refine decimal_isNumber h fun hoctal => ?_
    exact hzero (beq_iff_eq.mpr (octalText_take (decimalLength_le _) hoctal.1).1)

/-- Numeric literals have a reader of their own. -/
theorem Reads.number_or_other [Alphabet] {c : Char} {rest : List Char} {l : Lexeme}
    (h : Reads c rest l) :
    ((isDigit c || (c == '.' && rest.head?.any isDigit)) = true ∧ l = Lexeme.number c rest) ∨
      l.kind.isNumericLiteral = false := by
  cases h with
  | lineEnd | blank | string | regExp => exact .inr rfl
  | xmlAttribute =>
    refine .inr ?_
    rcases xmlAttribute_kind rest with hk | hk <;> rw [hk] <;> rfl
  | number hc => exact .inl ⟨hc, rfl⟩
  | word =>
    refine .inr ?_
    rcases word_kind c rest with hk | hk
    · rw [hk]
      rfl
    · exact Kind.not_isNumericLiteral_of_text? (by simp [Kind.text?, hk])
  | comment _ h =>
    refine .inr ?_
    rcases comment?_kind h with hk | hk <;> rw [hk] <;> rfl
  | mark =>
    refine .inr ?_
    rcases mark_kind c rest with hk | hk
    · rw [hk]
      rfl
    · exact Kind.not_isNumericLiteral_of_text? (by simp [Kind.text?, hk])

theorem next_isNumber [Alphabet] (xmlLiterals afterOperand : Bool) (modes : List Mode) (c : Char)
    (rest : List Char)
    (h : (next xmlLiterals afterOperand modes c rest).1.kind.isNumericLiteral = true) :
    (next xmlLiterals afterOperand modes c rest).1.IsNumber (c :: rest) := by
  rcases next_cases xmlLiterals afterOperand modes c rest with hreads | ⟨state, outer, -, htext⟩
  · rcases hreads.number_or_other with ⟨hc, hnumber⟩ | hother
    · rw [hnumber]
      exact number_isNumber hc
    · rw [h] at hother
      cases hother
  · rw [htext] at h
    rcases xmlText_kind state outer c rest with hk | hk <;> rw [hk] at h <;> cases h

end Lexeme

/-- The kind of a numeric literal is told by its text, and for octal ones by the next character. -/
theorem tokenize_numberText [Alphabet] {text : String} {xmlLiterals : Bool} {i : Nat} {t : Token}
    (h : (tokenize text xmlLiterals).tokens[i]? = some t) (hkind : t.kind.isNumericLiteral = true) :
    ∃ before after, text.toList = before ++ (t.text.toList ++ after) ∧
      (String.ofList before).utf8ByteSize =
        (Offsets.ofTokens (tokenize text xmlLiterals).tokens).get i ∧
      NumberText t.kind t.text.toList after := by
  obtain ⟨before, after, htext, hoffset, hnumber⟩ :=
    tokenize_lexical (P := fun k part after => k.isNumericLiteral = true → NumberText k part after)
      (Lexeme.next_isNumber xmlLiterals) h
  exact ⟨before, after, htext, hoffset, hnumber hkind⟩

/-- The digits of a decimal literal are octal, but an exponent might follow them. -/
theorem tokenize_numberText_exponent : ∃ t : Token, (tokenize "017e" true).tokens[0]? = some t ∧
    t.text = "017" ∧ ∃ after, NumberText .decimalLiteral "017".toList after := by
  have htoken : (tokenize "017e" true).tokens[0]? =
      some ⟨.decimalLiteral, "017", 1, 0, 0, false, false⟩ := by rfl
  obtain ⟨_, after, -, -, hnumber⟩ := tokenize_numberText htoken rfl
  exact ⟨_, htoken, rfl, after, hnumber⟩

/-- One text, two kinds. -/
theorem octalText_decimalLiteral : ∃ t : Token, (tokenize "017e" true).tokens[0]? = some t ∧
    OctalText t.text.toList ∧ t.kind = .decimalLiteral :=
  ⟨⟨.decimalLiteral, "017", 1, 0, 0, false, false⟩, by rfl,
    .mk (by decide) (List.all_eq_true.mp rfl), rfl⟩

end ScriptTree
