import ScriptTree.Proofs.EncodedText
import ScriptTree.Proofs.LexemeBounds
import ScriptTree.Scanner.Readers

/-!
The readers of the scanner stop where their lexemes end. A reader goes by bytes and would come to
nothing if it sliced inside a character or did not get on; the lexeme it reads is described by
characters. `Head.past` is the place a number of characters on, and for each reader there is an
equation which says that the reader goes there, with the kind and the fault of its lexeme.
-/
namespace ScriptTree

section
variable {σ ρ : Type} {turn : σ → Option (Turn σ ρ)} {P : σ → Prop} {m : σ → Nat} {f : σ → ρ}

/-- A turn from the state `s` in a loop that comes to `f` of its state, and here to `r`: it ends the
loop, or it goes on in a state that comes to the same and has less before it. -/
inductive TurnsTo (turn : σ → Option (Turn σ ρ)) (P : σ → Prop) (m : σ → Nat) (f : σ → ρ)
    (s : σ) (r : ρ) : Prop where
  | done (h : turn s = some (.done r))
  | again (s' : σ) (h : turn s = some (.again s')) (holds : P s') (less : m s' < m s)
    (same : f s' = r)

/-- A loop comes to what each of its turns keeps, if there are turns enough. -/
theorem turns_eq (hturn : ∀ s, P s → TurnsTo turn P m f s (f s)) {limit : Nat} {s : σ} (hs : P s)
    (hlimit : m s < limit) : turns turn limit s = some (f s) := by
  induction limit generalizing s with
  | zero => cases hlimit
  | succ limit ih =>
    cases hturn s hs with
    | done h => rw [turns, h]
    | again s' h holds less same =>
      rw [turns, h, ← same]
      exact ih holds (Nat.lt_of_lt_of_le less (Nat.le_of_lt_succ hlimit))

end

namespace Head
open CharClass

/-- The place that is `n` characters on. -/
def past (h : Head) (n : Nat) : Head where
  pos := h.pos + byteLength (h.rest.take n)
  rest := h.rest.drop n

@[simp] theorem past_zero (h : Head) : h.past 0 = h := rfl

@[simp] theorem past_rest (h : Head) (n : Nat) : (h.past n).rest = h.rest.drop n := rfl

/-- The place after the character that comes next. -/
theorem past_succ (pos : Nat) (c : Char) (rest : List Char) (n : Nat) :
    past ⟨pos, c :: rest⟩ (n + 1) = past ⟨pos + c.utf8Size, rest⟩ n := by
  simp [past, Nat.add_assoc]

theorem past_past (h : Head) (m n : Nat) : (h.past m).past n = h.past (m + n) := by
  obtain ⟨pos, text⟩ := h
  induction text generalizing pos m with
  | nil => simp [past]
  | cons c rest ih =>
    cases m with
    | zero => rw [past_zero, Nat.zero_add]
    | succ m => rw [past_succ, ih, Nat.succ_add, past_succ]

theorem length_past_lt (pos : Nat) (c : Char) (rest : List Char) (n : Nat) :
    (past ⟨pos, c :: rest⟩ (n + 1)).rest.length < (c :: rest).length := by
  rw [past_rest, List.drop_succ_cons, List.length_drop, List.length_cons]
  exact Nat.lt_succ_of_le (Nat.sub_le _ _)

/-- Slices are taken at the places between characters. -/
theorem advance_take (h : Head) (n : Nat) :
    h.advance (byteLength (h.rest.take n)) = some (h.past n) := by
  rw [advance, sliceFrom?_take, Option.map_some]
  rfl

theorem advanceChar_cons (pos : Nat) (c : Char) (rest : List Char) :
    advanceChar ⟨pos, c :: rest⟩ c = some (past ⟨pos, c :: rest⟩ 1) := by
  have htake : c.utf8Size = byteLength ((c :: rest).take 1) := by simp
  rw [advanceChar, htake]
  exact advance_take _ 1

/-- Characters that are bytes of their own are passed by their number. -/
theorem advance_plain {h : Head} {n : Nat} (hn : n ≤ h.rest.length)
    (hplain : ∀ c ∈ h.rest.take n, c.toNat < 128) : h.advance n = some (h.past n) := by
  have hsize : byteLength (h.rest.take n) = n := by
    rw [byteLength_of_small hplain, List.length_take_of_le hn]
  rw [← advance_take, hsize]

theorem toNat_lt_of_beq {c a b : Char} (h : (c == a || c == b) = true) (ha : a.toNat < 128)
    (hb : b.toNat < 128) : c.toNat < 128 := by
  rw [Bool.or_eq_true, beq_iff_eq, beq_iff_eq] at h
  rcases h with rfl | rfl
  · exact ha
  · exact hb

theorem advance_one {c : Char} (hc : c.toNat < 128) (pos : Nat) (rest : List Char) :
    advance ⟨pos, c :: rest⟩ 1 = some (past ⟨pos, c :: rest⟩ 1) := by
  apply advance_plain
  · simp
  · simpa using hc

theorem advance_two {c d : Char} (hc : c.toNat < 128) (hd : d.toNat < 128) (pos : Nat)
    (rest : List Char) :
    advance ⟨pos, c :: d :: rest⟩ 2 = some (past ⟨pos, c :: d :: rest⟩ 2) := by
  apply advance_plain
  · simp
  · simpa using ⟨hc, hd⟩

/-- What lies between a place and one further on. -/
theorem sliceTo?_past (h : Head) (n : Nat) :
    sliceTo? h.rest ((h.past n).pos - h.pos) = some (h.rest.take n) := by
  have hlength : (h.past n).pos - h.pos = byteLength (h.rest.take n) := Nat.add_sub_cancel_left ..
  rw [hlength, sliceTo?_take]

@[simp] theorem char?_nil (pos : Nat) : char? ⟨pos, []⟩ = none := rfl

@[simp] theorem char?_cons (pos : Nat) (c : Char) (rest : List Char) :
    char? ⟨pos, c :: rest⟩ = some c := rfl

@[simp] theorem charAt?_one (pos : Nat) (c : Char) (rest : List Char) :
    charAt? ⟨pos, c :: rest⟩ 1 = rest.head? := by
  cases rest <;> rfl

@[simp] theorem charAt?_two (pos : Nat) (c d : Char) (rest : List Char) :
    charAt? ⟨pos, c :: d :: rest⟩ 2 = rest.head? := by
  cases rest <;> rfl

/-! Runs of characters. -/

theorem skipWhile_eq (p : Char → Bool) (h : Head) :
    h.skipWhile p = some (h.past (runLength p h.rest)) := by
  refine turns_eq (P := fun _ => True) (m := fun h : Head => h.rest.length)
    (f := fun h : Head => h.past (runLength p h.rest)) (fun h _ => ?_) trivial (Nat.lt_succ_self _)
  obtain ⟨pos, text⟩ := h
  cases text with
  | nil => exact .done rfl
  | cons c rest =>
    cases hc : p c with
    | true =>
      refine .again (past ⟨pos, c :: rest⟩ 1) ?_ trivial (length_past_lt pos c rest 0) ?_
      · simp [skipTurn, Option.filter_some, hc, advanceChar_cons]
      · simp [past_past, runLength, hc, Nat.add_comm]
    | false => exact .done (by simp [skipTurn, Option.filter_some, runLength, hc])

theorem whiteSpace_eq {c : Char} (hc : isBlank c = true) (pos : Nat) (rest : List Char) :
    whiteSpace ⟨pos, c :: rest⟩ =
      some ({ kind := .whiteSpace },
        past ⟨pos, c :: rest⟩ (1 + runLength isBlank rest)) := by
  have hrun : runLength isBlank (c :: rest) = 1 + runLength isBlank rest := by
    simp [runLength, hc, Nat.add_comm]
  simp [whiteSpace, skipWhile_eq, hrun]

/-! Words. -/

theorem toNat_lt_of_isHexDigit {c : Char} (h : isHexDigit c = true) : c.toNat < 128 := by
  simp only [isHexDigit, isDigit, Bool.or_eq_true, Bool.and_eq_true, decide_eq_true_eq] at h
  rcases h with (h | h) | h
  · exact Nat.lt_of_le_of_lt h.2 (by decide)
  · exact Nat.lt_of_le_of_lt h.2 (by decide)
  · exact Nat.lt_of_le_of_lt h.2 (by decide)

theorem skipHexDigits_eq (n : Nat) (h : Head) :
    ∃ k, skipHexDigits n h = some (h.past k) ∧ k ≤ h.rest.length ∧
      ∀ c ∈ h.rest.take k, isHexDigit c = true := by
  induction n generalizing h with
  | zero => exact ⟨0, rfl, by simp⟩
  | succ n ih =>
    obtain ⟨pos, text⟩ := h
    cases text with
    | nil => exact ⟨0, rfl, by simp⟩
    | cons c rest =>
      cases hc : isHexDigit c with
      | false => exact ⟨0, by simp [skipHexDigits, hc], by simp⟩
      | true =>
        obtain ⟨k, hk, hlength, hdigits⟩ := ih (past ⟨pos, c :: rest⟩ 1)
        refine ⟨k + 1, ?_, Nat.succ_le_succ hlength, ?_⟩
        · rw [past_past, Nat.add_comm] at hk
          simpa [skipHexDigits, hc, advance_one (toNat_lt_of_isHexDigit hc)] using hk
        · simpa [hc] using hdigits

section
variable [Alphabet]

theorem isIdentifierPart_of_isHexDigit {c : Char} (h : isHexDigit c = true) :
    isIdentifierPart c = true := by
  have hclass : isLetter c = true ∨ isDigit c = true := by
    simp only [isHexDigit, Bool.or_eq_true, Bool.and_eq_true, decide_eq_true_eq] at h
    simp only [isLetter, Bool.or_eq_true, Bool.and_eq_true, decide_eq_true_eq]
    rcases h with (h | h) | h
    · exact .inr h
    · exact .inl (.inl ⟨h.1, Char.le_trans h.2 (by decide)⟩)
    · exact .inl (.inr ⟨h.1, Char.le_trans h.2 (by decide)⟩)
  simp only [isIdentifierPart, Bool.or_eq_true]
  rcases hclass with h | h
  · exact .inl (.inl (.inr h))
  · exact .inl (.inr h)

/-- The hexadecimal digits of an escape are read as identifier characters would be. -/
theorem wordLength_of_isHexDigit {k : Nat} {text : List Char} (hk : k ≤ text.length)
    (h : ∀ c ∈ text.take k, isHexDigit c = true) :
    Lexeme.wordLength text = k + Lexeme.wordLength (text.drop k) := by
  induction k generalizing text with
  | zero => simp
  | succ k ih =>
    cases text with
    | nil => cases hk
    | cons c rest =>
      rw [List.take_succ_cons, List.forall_mem_cons] at h
      rw [Lexeme.wordLength_of_part (isIdentifierPart_of_isHexDigit h.1),
        ih (Nat.le_of_succ_le_succ hk) h.2, List.drop_succ_cons]
      omega

theorem skipWord_eq (h : Head) : h.skipWord = some (h.past (Lexeme.wordLength h.rest)) := by
  refine turns_eq (P := fun _ => True) (m := fun h : Head => h.rest.length)
    (f := fun h : Head => h.past (Lexeme.wordLength h.rest)) (fun h _ => ?_) trivial
    (Nat.lt_succ_self _)
  obtain ⟨pos, text⟩ := h
  cases text with
  | nil => exact .done rfl
  | cons c rest =>
    cases hpart : isIdentifierPart c with
    | true =>
      refine .again (past ⟨pos, c :: rest⟩ 1) ?_ trivial (length_past_lt pos c rest 0) ?_
      · simp [wordTurn, hpart, advanceChar_cons]
      · simp [past_past, Lexeme.wordLength_of_part hpart, Nat.add_comm]
    | false =>
      cases hescape : c == '\\' && rest.head? == some 'u' with
      | false =>
        rw [Lexeme.wordLength_of_not_part hpart hescape]
        exact .done (by simp [wordTurn, hpart, hescape])
      | true =>
        -- An escape takes up to six characters in a turn.
        rw [Bool.and_eq_true, beq_iff_eq, beq_iff_eq] at hescape
        obtain ⟨rfl, hu⟩ := hescape
        obtain ⟨tail, rfl⟩ := List.head?_eq_some_iff.mp hu
        obtain ⟨k, hk, hlength, hdigits⟩ := skipHexDigits_eq 4 (past ⟨pos, '\\' :: 'u' :: tail⟩ 2)
        rw [past_past, Nat.add_comm] at hk
        refine .again (past ⟨pos, '\\' :: 'u' :: tail⟩ (k + 2)) ?_ trivial
          (length_past_lt pos _ _ (k + 1)) ?_
        · simp [wordTurn, hpart, advance_two, hk]
        · have htail := wordLength_of_isHexDigit hlength hdigits
          simp only [past_rest, List.drop_succ_cons, List.drop_zero] at htail
          have hword : Lexeme.wordLength ('\\' :: 'u' :: tail) =
              k + 2 + Lexeme.wordLength (tail.drop k) := by
            rw [Lexeme.wordLength, htail]
            omega
          simp [past_past, hword]

theorem word_eq (pos : Nat) (c : Char) (rest : List Char) :
    word ⟨pos, c :: rest⟩ =
      some (↑(Lexeme.word c rest), past ⟨pos, c :: rest⟩ (Lexeme.word c rest).size) := by
  have hslice := sliceTo?_past ⟨pos, c :: rest⟩ (Lexeme.wordLength (c :: rest))
  simp only at hslice
  simp [word, skipWord_eq, hslice, Lexeme.word]

theorem xmlAttribute_eq (pos : Nat) (rest : List Char) :
    xmlAttribute ⟨pos, '@' :: rest⟩ =
      some (↑(Lexeme.xmlAttribute rest),
        past ⟨pos, '@' :: rest⟩ (Lexeme.xmlAttribute rest).size) := by
  have hat := advance_one (c := '@') (by decide) pos rest
  cases rest with
  | nil => simp [xmlAttribute, hat, past, Lexeme.xmlAttribute, Lexeme.invalid]
  | cons c tail =>
    rw [past_succ, past_zero] at hat
    by_cases hstar : c = '*'
    · subst hstar
      simp [xmlAttribute, hat, advance_one, past_succ, Lexeme.xmlAttribute]
    · cases hstart : isIdentifierStart c <;>
        simp [xmlAttribute, hat, hstar, hstart, skipWord_eq, past_succ, Lexeme.xmlAttribute,
          Lexeme.invalid, Nat.add_comm 1]

end

/-! Numbers. -/

theorem skipFraction_eq (h : Head) :
    h.skipFraction = some (h.past (Lexeme.fractionLength h.rest)) := by
  obtain ⟨pos, text⟩ := h
  cases text with
  | nil => rfl
  | cons c rest =>
    by_cases hc : c = '.'
    · subst hc
      simp [skipFraction, advance_one, skipWhile_eq, past_past, Lexeme.fractionLength]
    · simp [skipFraction, hc, Lexeme.fractionLength]

theorem runLength_eq_zero (p : Char → Bool) (text : List Char) :
    (runLength p text == 0) = !text.head?.any p := by
  cases text with
  | nil => rfl
  | cons c rest => cases hc : p c <;> simp [runLength, hc]

/-- An exponent is passed if it has a digit. -/
theorem skipExponent_eq (h : Head) :
    h.skipExponent = some (h.past (Lexeme.exponentLength h.rest)) := by
  obtain ⟨pos, text⟩ := h
  cases text with
  | nil => rfl
  | cons e rest =>
    cases he : e == 'e' || e == 'E' with
    | false => simp [skipExponent, he, Lexeme.exponentLength]
    | true =>
      have hletter := toNat_lt_of_beq he (by decide) (by decide)
      cases rest with
      | nil => simp [skipExponent, exponentFollows, he, Lexeme.exponentLength, runLength]
      | cons d tail =>
        cases hd : d == '+' || d == '-' with
        | false =>
          cases hdigit : isDigit d <;>
            simp [skipExponent, exponentFollows, he, hd, hdigit, Lexeme.exponentLength,
              runLength_eq_zero, advance_one hletter, past_succ, skipWhile_eq, Nat.add_comm 1]
        | true =>
          have hsign := toNat_lt_of_beq hd (by decide) (by decide)
          cases hdigit : tail.head?.any isDigit <;>
            simp [skipExponent, exponentFollows, he, hd, hdigit, Lexeme.exponentLength,
              runLength_eq_zero, advance_one hletter, advance_one hsign, past_succ, skipWhile_eq,
              Nat.add_comm 2]

theorem decimal_eq (h : Head) :
    h.decimal = some ({ kind := .decimalLiteral }, h.past (Lexeme.decimalLength h.rest)) := by
  simp [decimal, skipWhile_eq, skipFraction_eq, skipExponent_eq, past_past, Nat.add_assoc,
    Lexeme.decimalLength]

/-- A zero is read with the octal digits after it, unless the number turns out to be decimal. -/
theorem octal_eq (pos : Nat) (rest : List Char) :
    octal ⟨pos, '0' :: rest⟩ =
      if (rest.drop (runLength isOctalDigit rest)).head?.any turnsDecimal then
        decimal ⟨pos, '0' :: rest⟩
      else some ({ kind := .octalIntegerLiteral },
        past ⟨pos, '0' :: rest⟩ (1 + runLength isOctalDigit rest)) := by
  simp [octal, advance_one, skipWhile_eq, past_past, char?, Nat.add_comm 1]

theorem number_eq (pos : Nat) (c : Char) (rest : List Char) :
    number ⟨pos, c :: rest⟩ =
      some (↑(Lexeme.number c rest), past ⟨pos, c :: rest⟩ (Lexeme.number c rest).size) := by
  cases hzero : c == '0' with
  | false => simp [number, hzero, decimal_eq, Lexeme.number]
  | true =>
    obtain rfl : c = '0' := by simpa using hzero
    cases rest with
    | nil => simp [number, decimal_eq, Lexeme.number]
    | cons d digits =>
      cases hhex : d == 'x' || d == 'X' with
      | true =>
        have hd := toNat_lt_of_beq hhex (by decide) (by decide)
        simp [number, hhex, advance_two (c := '0') (by decide) hd, skipWhile_eq, past_past,
          Lexeme.number]
      | false =>
        have hoctal := octal_eq pos (d :: digits)
        have hnone := runLength_eq_zero isOctalDigit (d :: digits)
        cases hd : isOctalDigit d with
        | false => simp [number, hhex, hd, decimal_eq, Lexeme.number, hnone]
        | true =>
          rw [decimal_eq] at hoctal
          simp only [number, char?_cons, charAt?_one, List.head?_cons, beq_self_eq_true, if_true,
            hhex, Bool.false_eq_true, if_false, hd, hoctal, Lexeme.number, hnone, Option.any_some,
            Bool.not_true, Bool.false_or]
          split
          · rfl
          · rfl

/-! What stands between delimiters. -/

theorem skipEscaped_eq_two (pos : Nat) (rest : List Char) :
    skipEscaped ⟨pos, '\r' :: '\n' :: rest⟩ = some (past ⟨pos, '\r' :: '\n' :: rest⟩ 2) := by
  simp [skipEscaped, advance_one, past_succ]

theorem skipEscaped_eq_one {c : Char} {rest : List Char}
    (h : ∀ tail, c = '\r' → rest = '\n' :: tail → False) (pos : Nat) :
    skipEscaped ⟨pos, c :: rest⟩ = some (past ⟨pos, c :: rest⟩ 1) := by
  by_cases hc : c = '\r'
  · subst hc
    cases rest with
    | nil => simp [skipEscaped, advance_one, past_succ]
    | cons d tail =>
      have hd : d ≠ '\n' := by
        rintro rfl
        exact h tail rfl rfl
      simp [skipEscaped, advance_one, past_succ, hd]
  · simp [skipEscaped, hc, advanceChar_cons]

/-- What a loop comes to that goes through the extent `e`. -/
def extent (h : Head) (e : Extent) : Bool × Head := (e.closed, h.past e.length)

theorem extent_after (h : Head) (n : Nat) (e : Extent) :
    (h.past n).extent e = h.extent (e.after n) := by
  rw [extent, past_past, Nat.add_comm]
  rfl

theorem turns_stringTurn {quote : Char} (hquote : quote = '"' ∨ quote = '\'') (h : Head) :
    turns (stringTurn quote) h.turnLimit h =
      some (h.extent (Lexeme.stringExtent quote h.rest)) := by
  have hplain : quote.toNat < 128 := by rcases hquote with rfl | rfl <;> decide
  have hslash : '\\' ≠ quote := by rcases hquote with rfl | rfl <;> decide
  refine turns_eq (P := fun _ => True) (m := fun h : Head => h.rest.length)
    (f := fun h : Head => h.extent (Lexeme.stringExtent quote h.rest)) (fun h _ => ?_) trivial
    (Nat.lt_succ_self _)
  obtain ⟨pos, text⟩ := h
  dsimp only
  fun_cases Lexeme.stringExtent quote text with
  | case1 => exact .done rfl
  | case2 rest =>
    refine .again (past ⟨pos, '\\' :: '\r' :: '\n' :: rest⟩ 3) ?_ trivial
      (length_past_lt pos _ _ 2) (extent_after _ 3 _)
    simp [stringTurn, hslash, advance_one, past_succ, skipEscaped_eq_two]
  | case3 d rest hnext =>
    refine .again (past ⟨pos, '\\' :: d :: rest⟩ 2) ?_ trivial (length_past_lt pos _ _ 1)
      (extent_after _ 2 _)
    simp [stringTurn, hslash, advance_one, past_succ, skipEscaped_eq_one hnext]
  | case4 c rest _ _ hc =>
    obtain rfl : c = quote := by simpa using hc
    exact .done (by simp [stringTurn, advance_one hplain, extent])
  | case5 c rest _ _ hc hbreak =>
    have hback : c ≠ '\\' := by
      rintro rfl
      cases hbreak
    exact .done (by simp [stringTurn, by simpa using hc, hback, hbreak, extent])
  | case6 c rest _ hend hc hbreak =>
    refine .again (past ⟨pos, c :: rest⟩ 1) ?_ trivial (length_past_lt pos c rest 0)
      (extent_after _ 1 _)
    by_cases hback : c = '\\'
    · -- The backslash is the last character.
      cases rest with
      | nil =>
        subst hback
        simp [stringTurn, hslash, advance_one, past_succ, skipEscaped]
      | cons d tail => exact absurd rfl (hend d tail hback)
    · simp [stringTurn, by simpa using hc, hback, hbreak, advanceChar_cons]

theorem string_eq {quote : Char} (hquote : quote = '"' ∨ quote = '\'') (pos : Nat)
    (rest : List Char) :
    string quote ⟨pos, quote :: rest⟩ =
      some (↑(Lexeme.string quote rest),
        past ⟨pos, quote :: rest⟩ (Lexeme.string quote rest).size) := by
  have hplain : quote.toNat < 128 := by rcases hquote with rfl | rfl <;> decide
  simp [string, advance_one hplain, past_succ, turns_stringTurn hquote, extent, Lexeme.string,
    Lexeme.delimited]

section
variable [Alphabet]

theorem turns_regExpTurn (inClass : Bool) (h : Head) :
    turns regExpTurn h.turnLimit (inClass, h) =
      some (h.extent (Lexeme.regExpExtent inClass h.rest)) := by
  refine turns_eq (s := (inClass, h)) (P := fun _ => True) (m := fun s => s.2.rest.length)
    (f := fun s : Bool × Head => s.2.extent (Lexeme.regExpExtent s.1 s.2.rest)) (fun s _ => ?_)
    trivial (Nat.lt_succ_self _)
  obtain ⟨inClass, pos, text⟩ := s
  dsimp only
  fun_cases Lexeme.regExpExtent inClass text with
  | case1 => exact .done rfl
  | case2 c rest hbreak => exact .done (by simp [regExpTurn, hbreak, extent])
  | case3 c hbreak hback =>
    obtain rfl : c = '\\' := by simpa using hback
    refine .again (inClass, past ⟨pos, ['\\']⟩ 1) ?_ trivial (length_past_lt pos _ _ 0) rfl
    simp [regExpTurn, hbreak, advance_one, past_succ]
  | case4 c hbreak hback d after hd =>
    -- The turn after this one ends at the line end.
    obtain rfl : c = '\\' := by simpa using hback
    have hfilter : (some d).filter (fun d => !isLineBreak d) = none := by
      simp [Option.filter_some, hd]
    refine .again (inClass, past ⟨pos, '\\' :: d :: after⟩ 1) ?_ trivial (length_past_lt pos _ _ 0)
      ?_
    · simp [regExpTurn, hbreak, hfilter, advance_one, past_succ]
    · have hstop : Lexeme.regExpExtent inClass (d :: after) = ⟨0, false⟩ := by
        unfold Lexeme.regExpExtent
        rw [if_pos hd]
      rw [past_rest, List.drop_one, List.tail_cons, hstop]
      rfl
  | case5 c hbreak hback d after hd =>
    obtain rfl : c = '\\' := by simpa using hback
    have hfilter : (some d).filter (fun d => !isLineBreak d) = some d := by
      simp [Option.filter_some, hd]
    refine .again (inClass, past ⟨pos, '\\' :: d :: after⟩ 2) ?_ trivial (length_past_lt pos _ _ 1)
      (extent_after _ 2 _)
    simp [regExpTurn, hbreak, hfilter, advance_one, advanceChar_cons, past_succ]
  | case6 c rest hbreak hback hslash =>
    obtain ⟨rfl, rfl⟩ : c = '/' ∧ inClass = false := by simpa using hslash
    exact .done (by simp [regExpTurn, hbreak, advance_one, skipWhile_eq, past_past, extent])
  | case7 c rest hbreak hback hslash =>
    refine .again (if c == '[' then true else if c == ']' then false else inClass,
      past ⟨pos, c :: rest⟩ 1) ?_ trivial (length_past_lt pos c rest 0) (extent_after _ 1 _)
    simp [regExpTurn, hbreak, hback, hslash, advanceChar_cons]

theorem regExp_eq (pos : Nat) (rest : List Char) :
    regExp ⟨pos, '/' :: rest⟩ =
      some (↑(Lexeme.regExp rest), past ⟨pos, '/' :: rest⟩ (Lexeme.regExp rest).size) := by
  simp [regExp, advance_one, past_succ, turns_regExpTurn, extent, Lexeme.regExp, Lexeme.delimited]

end

/-! Comments. -/

/-- The bytes after the first of a character end no line. -/
theorem lineEnd?_append {more : List UInt8} (hmore : ∀ x ∈ more, IsContinuation x)
    (text : List Char) (i : Nat) (bytes : List UInt8) :
    lineEnd? text i (more ++ bytes) = lineEnd? text (i + more.length) bytes := by
  induction more generalizing i with
  | nil => rfl
  | cons b more ih =>
    have hother {x : UInt8} (hx : ¬IsContinuation x) : (b == x) = false := by
      refine beq_eq_false_iff_ne.mpr fun h => hx ?_
      rw [← h]
      exact hmore b List.mem_cons_self
    rw [List.cons_append, lineEnd?, hother (by decide), hother (by decide), hother (by decide),
      Bool.or_false, if_neg Bool.false_ne_true, if_neg Bool.false_ne_true,
      ih (fun x hx => hmore x (List.mem_cons_of_mem b hx)), List.length_cons]
    congr 1
    omega

/-- The first byte of a character tells whether it ends the line, if need be with the help of the
text itself. -/
theorem lineEnd?_first {c : Char} {b : UInt8} {more : List UInt8}
    (hbytes : String.utf8EncodeChar c = b :: more) (before rest : List Char)
    (bytes : List UInt8) :
    lineEnd? (before ++ c :: rest) (byteLength before) (b :: bytes) =
      if isLineBreak c then some (byteLength before)
      else lineEnd? (before ++ c :: rest) (byteLength before + 1) bytes := by
  have hsmall {a : Char} (ha : a.toNat < 128) : b = UInt8.ofNat a.toNat ↔ c = a := by
    have hhead := encoded_head?_eq_iff ha [c]
    rw [encoded_cons, hbytes] at hhead
    simpa using hhead
  have hslice : sliceFrom? (before ++ c :: rest) (byteLength before) = some (c :: rest) :=
    sliceFrom?_eq_some_iff.mpr ⟨before, rfl, rfl⟩
  cases hbreak : isLineBreak c with
  | true =>
    rw [if_pos rfl, lineEnd?, hslice]
    simp only [isLineBreak, Bool.or_eq_true, beq_iff_eq] at hbreak
    -- A line feed and a carriage return are bytes of their own, the others begin with 0xE2.
    rcases hbreak with ((rfl | rfl) | rfl) | rfl <;> obtain ⟨rfl, -⟩ := List.cons.inj hbytes <;> rfl
  | false =>
    simp only [isLineBreak, Bool.or_eq_false_iff, beq_eq_false_iff_ne] at hbreak
    obtain ⟨⟨⟨hfeed, hreturn⟩, hline⟩, hparagraph⟩ := hbreak
    have hbfeed : (b == 0x0A) = false :=
      beq_eq_false_iff_ne.mpr fun h => hfeed ((hsmall (a := '\n') (by decide)).mp h)
    have hbreturn : (b == 0x0D) = false :=
      beq_eq_false_iff_ne.mpr fun h => hreturn ((hsmall (a := '\r') (by decide)).mp h)
    rw [lineEnd?, hslice, hbfeed, hbreturn]
    simp [hline, hparagraph]

theorem lineEnd?_eq (before text : List Char) :
    lineEnd? (before ++ text) (byteLength before) (encoded text) =
      some (byteLength before + byteLength (text.take (Lexeme.lineCommentLength text))) := by
  induction text generalizing before with
  | nil => rfl
  | cons c rest ih =>
    obtain ⟨b, more, hbytes, hmore⟩ := utf8EncodeChar_eq_cons c
    rw [encoded_cons, hbytes, List.cons_append, lineEnd?_first hbytes, lineEnd?_append hmore]
    cases hbreak : isLineBreak c with
    | true => simp [Lexeme.lineCommentLength, runLength, hbreak]
    | false =>
      have hsize : byteLength before + 1 + more.length = byteLength (before ++ [c]) := by
        have hlength := String.length_utf8EncodeChar c
        rw [hbytes, List.length_cons] at hlength
        rw [byteLength_append, byteLength_cons, byteLength_nil]
        omega
      have ih := ih (before ++ [c])
      rw [List.append_assoc, List.singleton_append] at ih
      rw [if_neg Bool.false_ne_true, hsize, ih]
      simp [Lexeme.lineCommentLength, runLength, hbreak, Nat.add_assoc]

theorem lineComment_eq (pos : Nat) (rest : List Char) :
    lineComment ⟨pos, '/' :: '/' :: rest⟩ =
      some ({ kind := .singleLineComment },
        past ⟨pos, '/' :: '/' :: rest⟩ (Lexeme.lineCommentLength rest + 2)) := by
  have hend : lineEnd? ('/' :: '/' :: rest) 2 (encoded rest) = some (byteLength
      (('/' :: '/' :: rest).take (Lexeme.lineCommentLength rest + 2))) := by
    have hplain := lineEnd?_eq ['/', '/'] rest
    rw [← byteLength_append] at hplain
    exact hplain
  have hdrop : (encoded ('/' :: '/' :: rest)).drop 2 = encoded rest := rfl
  have hadvance := advance_take ⟨pos, '/' :: '/' :: rest⟩ (Lexeme.lineCommentLength rest + 2)
  simp only at hadvance
  simp only [lineComment, hdrop, hend, Option.bind_eq_bind, Option.bind_some, hadvance]
  rfl

/-- A mark is looked for after `skip` characters that are bytes of their own. -/
theorem skipPast_eq {h : Head} {skip : Nat} {mark : List Char} (hskip : skip ≤ h.rest.length)
    (hplain : ∀ c ∈ h.rest.take skip, c.toNat < 128) (hmark : IsPlainMark mark) :
    skipPast h skip mark =
      some (match lengthThrough? mark (h.rest.drop skip) with
        | some n => (h.past (skip + n), true)
        | none => (h.past h.rest.length, false)) := by
  have hsize : byteLength (h.rest.take skip) = skip := by
    rw [byteLength_of_small hplain, List.length_take_of_le hskip]
  have hstart : min skip (encoded h.rest).length = skip := by
    have hle := byteLength_take_add_drop h.rest skip
    rw [length_encoded]
    omega
  have hdrop : (encoded h.rest).drop skip = encoded (h.rest.drop skip) := by
    conv_lhs => rw [← List.take_append_drop skip h.rest, encoded_append]
    exact List.drop_left' (by rw [length_encoded, hsize])
  have hfind := findBytes?_encoded hmark (h.rest.drop skip)
  simp only [skipPast, hstart, hdrop]
  cases hmarked : lengthThrough? mark (h.rest.drop skip) with
  | none =>
    rw [hmarked, Option.map_none, Option.map_eq_none_iff] at hfind
    have hend := h.advance_take h.rest.length
    rw [List.take_length, ← length_encoded] at hend
    simp [hfind, hend]
  | some n =>
    rw [hmarked, Option.map_some] at hfind
    obtain ⟨i, hi, hn⟩ := Option.map_eq_some_iff.mp hfind
    have hstop : skip + i + (encoded mark).length = byteLength (h.rest.take (skip + n)) := by
      rw [List.take_add, byteLength_append, hsize, ← hn, length_encoded, Nat.add_assoc]
    have hadvance := h.advance_take (skip + n)
    rw [← hstop] at hadvance
    simp [hi, hadvance]

theorem blockComment_eq (pos : Nat) (rest : List Char) :
    blockComment ⟨pos, '/' :: '*' :: rest⟩ =
      some (.delimited .multiLineComment .unterminatedComment
          (Lexeme.blockCommentExtent rest).closed,
        past ⟨pos, '/' :: '*' :: rest⟩ ((Lexeme.blockCommentExtent rest).length + 2)) := by
  rw [blockComment, skipPast_eq (by simp) (by simp) (by simp [IsPlainMark]),
    Lexeme.blockCommentExtent]
  simp only [List.drop_succ_cons, List.drop_zero]
  cases lengthThrough? ['*', '/'] rest with
  | none => rfl
  | some n => simp [Nat.add_comm 2]

end Head
end ScriptTree
