import ScriptTree.Proofs.LexemeLocality
import ScriptTree.Proofs.NumericLiterals

/-!
Lexemes at the end of a text. A reader that takes in nothing beyond a place finds the same when the
text is cut there, although it may have looked beyond. Only one does not: octal digits that stand
before an `e` make a decimal number, and an octal one where the `e` is cut off.
-/
namespace ScriptTree
open CharClass

variable {p v : List Char}

theorem runLength_cut {q : Char → Bool} (h : runLength q (p ++ v) ≤ p.length) :
    runLength q p = runLength q (p ++ v) := by
  unfold runLength at h ⊢
  rw [List.takeWhile_append] at h ⊢
  split
  · rename_i hall
    rw [if_pos hall, List.length_append] at h
    rw [List.length_append, hall]
    omega
  · rfl

/-- What stands at a place of a text also stands there when the text goes on. -/
theorem head?_drop_append {q : Char → Bool} {n : Nat} (h : (p.drop n).head?.any q = true)
    (v : List Char) : ((p ++ v).drop n).head?.any q = true := by
  rw [List.drop_append]
  cases hp : p.drop n with
  | nil => simp [hp] at h
  | cons c rest =>
    rw [hp] at h
    exact h

/-- What does not stand there when the text is cut stood beyond the cut. -/
theorem length_le_of_head?_drop {q : Char → Bool} {n : Nat}
    (h : ((p ++ v).drop n).head?.any q = true) (hcut : ¬(p.drop n).head?.any q = true) :
    p.length ≤ n := by
  rw [List.drop_append] at h
  cases hp : p.drop n with
  | nil => exact List.drop_eq_nil_iff.mp hp
  | cons c rest =>
    rw [hp] at h hcut
    exact absurd h hcut

namespace Lexeme

/-! Words and numbers. -/

theorem wordLength_cut [Alphabet] (h : wordLength (p ++ v) ≤ p.length) :
    wordLength p = wordLength (p ++ v) := by
  fun_induction wordLength p with
  | case1 rest ih =>
    simp only [List.cons_append, wordLength, List.length_cons] at h ⊢
    rw [ih (by omega)]
  | case2 c rest hnot hc ih =>
    have hbackslash : c ≠ '\\' := by
      rintro rfl
      cases hc
    rw [List.cons_append, wordLength.eq_2 _ _ fun _ hc _ => hbackslash hc, if_pos hc] at h ⊢
    rw [ih (Nat.le_of_succ_le_succ h)]
  | case3 c rest hnot hc =>
    have hnot' : ∀ tail, c = '\\' → rest ++ v = 'u' :: tail → False := by
      rintro tail rfl htail
      cases rest with
      | nil =>
        rw [List.nil_append] at htail
        simp [htail, wordLength] at h
      | cons x rest => exact hnot rest rfl (congrArg (· :: rest) (List.cons.inj htail).1)
    rw [List.cons_append, wordLength.eq_2 _ _ hnot', if_neg hc]
  | case4 => exact (Nat.le_zero.mp h).symm

theorem fractionLength_cut (h : fractionLength (p ++ v) ≤ p.length) :
    fractionLength p = fractionLength (p ++ v) := by
  cases p with
  | nil => exact (Nat.le_zero.mp h).symm
  | cons c p =>
    by_cases hc : c = '.'
    · subst hc
      have hrun : runLength isDigit (p ++ v) ≤ p.length := by
        simp only [List.cons_append, fractionLength, List.length_cons] at h
        omega
      simp only [List.cons_append, fractionLength, runLength_cut hrun]
    · simp [fractionLength, hc]

/-- The length of the sign at the front of a text. -/
def signLength (text : List Char) : Nat :=
  if text.head?.any (fun c => c == '+' || c == '-') then 1 else 0

theorem exponentLength_cons (e : Char) (rest : List Char) :
    exponentLength (e :: rest) = if e == 'e' || e == 'E' then
      if runLength isDigit (rest.drop (signLength rest)) == 0 then 0
      else 1 + signLength rest + runLength isDigit (rest.drop (signLength rest)) else 0 := by
  cases rest <;> rfl

theorem signLength_le (c : Char) (rest : List Char) :
    signLength (c :: rest) ≤ (c :: rest).length := by
  unfold signLength
  split <;> simp

theorem exponentLength_cut (h : exponentLength (p ++ v) ≤ p.length) :
    exponentLength p = exponentLength (p ++ v) := by
  cases p with
  | nil => exact (Nat.le_zero.mp h).symm
  | cons e p =>
    rw [List.cons_append, exponentLength_cons, List.length_cons] at h
    rw [List.cons_append, exponentLength_cons, exponentLength_cons]
    split
    · rename_i he
      rw [if_pos he] at h
      cases p with
      | nil =>
        -- The digits of an exponent would have to stand beyond the place.
        split at h
        · rename_i hnone
          rw [if_pos hnone]
          rfl
        · rename_i hsome
          rw [beq_iff_eq] at hsome
          rw [List.length_nil] at h
          omega
      | cons c p =>
        have hsign : signLength (c :: p ++ v) = signLength (c :: p) := rfl
        rw [hsign, List.drop_append_of_le_length (signLength_le c p)] at h ⊢
        rw [runLength_cut]
        rw [List.length_drop]
        split at h
        · rename_i hnone
          rw [beq_iff_eq] at hnone
          omega
        · omega
    · rfl

theorem decimalLength_cut (h : decimalLength (p ++ v) ≤ p.length) :
    decimalLength p = decimalLength (p ++ v) := by
  unfold decimalLength at h ⊢
  dsimp only at h ⊢
  have hwhole : runLength isDigit p = runLength isDigit (p ++ v) := runLength_cut (by omega)
  rw [← hwhole, List.drop_append_of_le_length (runLength_le isDigit p)] at h ⊢
  have hfraction : fractionLength (p.drop (runLength isDigit p)) =
      fractionLength (p.drop (runLength isDigit p) ++ v) := by
    apply fractionLength_cut
    rw [List.length_drop]
    omega
  rw [← hfraction] at h ⊢
  rw [List.drop_append_of_le_length (by omega)] at h ⊢
  rw [exponentLength_cut]
  rw [List.length_drop]
  omega

/-- Lexeme `l'` is what becomes of `l` when all is cut off that stands beyond the `n` characters
from its first one on. -/
inductive CutTo (n : Nat) (l : Lexeme) : Lexeme → Prop where
  | same : CutTo n l l
  | octal : l.kind = .decimalLiteral → l.size = n →
      CutTo n l { l with kind := .octalIntegerLiteral }

/-- Octal digits after a zero are the beginning of a decimal number as well. -/
theorem runLength_isOctalDigit_lt (rest : List Char) :
    runLength isOctalDigit rest < decimalLength ('0' :: rest) := by
  have hdigits : ∀ c ∈ '0' :: rest.takeWhile isOctalDigit, isDigit c = true := by
    refine List.forall_mem_cons.mpr ⟨rfl, fun c hc => ?_⟩
    exact isDigit_of_isOctalDigit (List.mem_takeWhile_imp hc)
  have hlength := decimalLength_append hdigits (rest.dropWhile isOctalDigit)
  rw [List.cons_append, List.takeWhile_append_dropWhile, List.length_cons] at hlength
  rw [hlength, runLength]
  omega

/-- A number that begins with a zero and is not hexadecimal. -/
theorem number_zero {rest : List Char}
    (hx : rest.head?.any (fun d => d == 'x' || d == 'X') = false) : number '0' rest =
      if runLength isOctalDigit rest == 0 ||
          (rest.drop (runLength isOctalDigit rest)).head?.any turnsDecimal then
        { kind := .decimalLiteral, size := decimalLength ('0' :: rest) }
      else { kind := .octalIntegerLiteral, size := 1 + runLength isOctalDigit rest } := by
  cases rest with
  | nil => rfl
  | cons d digits =>
    have hd : (d == 'x' || d == 'X') = false := hx
    unfold number
    dsimp only
    rw [if_pos (by rfl), hd]
    rfl

theorem number_hex {d : Char} (h : (d == 'x' || d == 'X') = true) (digits : List Char) :
    number '0' (d :: digits) =
      { kind := .hexIntegerLiteral, size := 2 + runLength isHexDigit digits } := by
  simp [number, h]

theorem number_zero_cut (hx : (p ++ v).head?.any (fun d => d == 'x' || d == 'X') = false)
    (h : (number '0' (p ++ v)).size ≤ p.length + 1) :
    CutTo (p.length + 1) (number '0' (p ++ v)) (number '0' p) := by
  have hxp : p.head?.any (fun d => d == 'x' || d == 'X') = false := by
    cases p with
    | nil => rfl
    | cons d p => exact hx
  have hlt := runLength_isOctalDigit_lt (p ++ v)
  rw [number_zero hx] at h ⊢
  rw [number_zero hxp]
  split
  · rename_i hdecimal
    rw [if_pos hdecimal] at h
    dsimp only at h
    have hlength : decimalLength ('0' :: p) = decimalLength ('0' :: (p ++ v)) :=
      decimalLength_cut (p := '0' :: p) h
    have hoctals : runLength isOctalDigit p = runLength isOctalDigit (p ++ v) :=
      runLength_cut (by omega)
    rw [hlength, hoctals]
    split
    · exact .same
    · rename_i hoctal
      -- The character that turns the number decimal is cut off.
      simp only [Bool.or_eq_true, not_or] at hdecimal hoctal
      have hend := length_le_of_head?_drop (hdecimal.resolve_left hoctal.1) hoctal.2
      have hsize : decimalLength ('0' :: (p ++ v)) = p.length + 1 := by omega
      have hlonger : 1 + runLength isOctalDigit (p ++ v) = p.length + 1 := by omega
      rw [hsize, hlonger]
      exact .octal rfl rfl
  · rename_i hoctal
    rw [if_neg hoctal] at h
    dsimp only at h
    rw [runLength_cut (p := p) (v := v) (by omega), if_neg]
    · exact .same
    · simp only [Bool.or_eq_true, not_or] at hoctal ⊢
      exact ⟨hoctal.1, fun hturns => hoctal.2 (head?_drop_append hturns v)⟩

theorem number_cut {c : Char} (h : (number c (p ++ v)).size ≤ p.length + 1) :
    CutTo (p.length + 1) (number c (p ++ v)) (number c p) := by
  by_cases hzero : c = '0'
  · subst hzero
    cases hx : (p ++ v).head?.any (fun d => d == 'x' || d == 'X') with
    | false => exact number_zero_cut hx h
    | true =>
      match p, v with
      | [], [] => cases hx
      | [], d :: v =>
        rw [List.nil_append, number_hex hx] at h
        have h : 2 + runLength isHexDigit v ≤ 1 := h
        omega
      | d :: p, v =>
        rw [List.cons_append, number_hex hx] at h ⊢
        have h : 2 + runLength isHexDigit (p ++ v) ≤ p.length + 2 := h
        have hdigits : runLength isHexDigit (p ++ v) ≤ p.length := by omega
        rw [number_hex hx, runLength_cut hdigits]
        exact .same
  · have hplain (rest : List Char) : number c rest =
        { kind := .decimalLiteral, size := decimalLength (c :: rest) } := by
      simp [number, hzero]
    rw [hplain] at h ⊢
    have hlength : decimalLength (c :: p) = decimalLength (c :: (p ++ v)) :=
      decimalLength_cut (p := c :: p) h
    rw [hplain, hlength]
    exact .same

/-! Lexemes between delimiters. -/

theorem stringExtent_eq_of_length {quote : Char} {text : List Char}
    (h : (stringExtent quote text).length = 0) : stringExtent quote text = ⟨0, false⟩ := by
  fun_induction stringExtent quote text with
  | case1 => rfl
  | case2 => cases h
  | case3 => cases h
  | case4 => cases h
  | case5 => rfl
  | case6 => cases h

/-- A backslash takes in the character after it. -/
theorem two_le_stringExtent (quote c : Char) (rest : List Char) :
    2 ≤ (stringExtent quote ('\\' :: c :: rest)).length := by
  by_cases hreturn : ∃ tail, c = '\r' ∧ rest = '\n' :: tail
  · obtain ⟨tail, rfl, rfl⟩ := hreturn
    rw [stringExtent]
    exact Nat.le_trans (by decide) (Nat.le_add_left 3 _)
  · rw [stringExtent.eq_3 _ _ _ fun tail hc hrest => hreturn ⟨tail, hc, hrest⟩]
    exact Nat.le_add_left 2 _

theorem stringExtent_cut {quote : Char} (h : (stringExtent quote (p ++ v)).length ≤ p.length) :
    stringExtent quote p = stringExtent quote (p ++ v) := by
  cases v with
  | nil => rw [List.append_nil]
  | cons d w =>
    have hplain {c : Char} {rest : List Char}
        (hescape : ∀ x tail, c = '\\' → rest = x :: tail → False)
        (h : (stringExtent quote (c :: rest ++ d :: w)).length ≤ (c :: rest).length) :
        c ≠ '\\' := by
      rintro rfl
      cases rest with
      | nil => exact absurd h (Nat.not_le_of_lt (two_le_stringExtent quote d w))
      | cons x rest => exact hescape x rest rfl rfl
    fun_induction stringExtent quote p with
    | case1 => exact (stringExtent_eq_of_length (Nat.le_zero.mp h)).symm
    | case2 rest ih =>
      simp only [List.cons_append, stringExtent] at h ⊢
      rw [ih (by simpa using h)]
    | case3 c rest hnot ih =>
      have hnot' : ∀ tail, c = '\r' → rest ++ d :: w = '\n' :: tail → False := by
        rintro tail rfl htail
        cases rest with
        | nil =>
          -- The line end would be taken in as a whole.
          rw [List.nil_append] at htail
          rw [List.cons_append, List.cons_append, List.nil_append, htail, stringExtent] at h
          simp at h
        | cons x rest => exact hnot rest rfl (congrArg (· :: rest) (List.cons.inj htail).1)
      rw [List.cons_append, List.cons_append, stringExtent.eq_3 _ _ _ hnot'] at h ⊢
      rw [ih (by simpa using h)]
    | case4 c rest _ hescape hc =>
      rw [List.cons_append, stringExtent_cons _ _ (hplain hescape h), if_pos hc]
    | case5 c rest _ hescape hc hbreak =>
      rw [List.cons_append, stringExtent_cons _ _ (hplain hescape h), if_neg hc, if_pos hbreak]
    | case6 c rest _ hescape hc hbreak ih =>
      have hc' := hplain hescape h
      rw [List.cons_append, stringExtent_cons _ _ hc', if_neg hc, if_neg hbreak] at h ⊢
      rw [ih (by simpa using h)]

theorem regExpExtent_eq_of_length [Alphabet] {inClass : Bool} {text : List Char}
    (h : (regExpExtent inClass text).length = 0) : regExpExtent inClass text = ⟨0, false⟩ := by
  fun_induction regExpExtent inClass text with
  | case1 => rfl
  | case2 => rfl
  | case3 => cases h
  | case4 => cases h
  | case5 => cases h
  | case6 =>
    dsimp only at h
    omega
  | case7 => cases h

/-- A backslash takes in no line end. -/
theorem regExpExtent_escape_lineBreak [Alphabet] {c : Char} (inClass : Bool) (rest : List Char)
    (hbreak : isLineBreak c = true) : regExpExtent inClass ('\\' :: c :: rest) = ⟨1, false⟩ := by
  have hbackslash : isLineBreak '\\' = false := rfl
  rw [regExpExtent]
  simp [hbackslash, hbreak]

theorem regExpExtent_cut [Alphabet] {inClass : Bool}
    (h : (regExpExtent inClass (p ++ v)).length ≤ p.length) :
    regExpExtent inClass p = regExpExtent inClass (p ++ v) := by
  cases v with
  | nil => rw [List.append_nil]
  | cons d w =>
    fun_induction regExpExtent inClass p with
    | case1 inClass => exact (regExpExtent_eq_of_length (Nat.le_zero.mp h)).symm
    | case2 inClass c rest hbreak =>
      rw [List.cons_append]
      unfold regExpExtent
      rw [if_pos hbreak]
    | case3 inClass c hbreak hbackslash =>
      obtain rfl : c = '\\' := by simpa using hbackslash
      rw [List.cons_append, List.nil_append] at h ⊢
      cases hline : isLineBreak d with
      | true => exact (regExpExtent_escape_lineBreak inClass w hline).symm
      | false =>
        rw [regExpExtent_escape _ _ hline] at h
        simp at h
    | case4 inClass c hbreak hbackslash x rest hline =>
      obtain rfl : c = '\\' := by simpa using hbackslash
      exact (regExpExtent_escape_lineBreak inClass (rest ++ d :: w) hline).symm
    | case5 inClass c hbreak hbackslash x rest hline ih =>
      obtain rfl : c = '\\' := by simpa using hbackslash
      have hline : isLineBreak x = false := by simpa using hline
      simp only [List.cons_append, regExpExtent_escape _ _ hline] at h ⊢
      rw [ih (by simpa using h)]
    | case6 inClass c rest hbreak hbackslash hslash =>
      have hstep : regExpExtent inClass (c :: (rest ++ d :: w)) =
          ⟨1 + runLength isIdentifierPart (rest ++ d :: w), true⟩ := by
        conv_lhs => unfold regExpExtent
        rw [if_neg hbreak, if_neg hbackslash, if_pos hslash]
      rw [List.cons_append, hstep] at h ⊢
      rw [List.length_cons] at h
      rw [runLength_cut (p := rest) (v := d :: w) (by dsimp only at h; omega)]
    | case7 inClass c rest hbreak hbackslash hslash ih =>
      have hopen : c = '/' → inClass = true := by
        rintro rfl
        simpa using hslash
      have hstep (rest : List Char) := regExpExtent_cons c rest
        (by simpa using hbackslash) (by simpa using hbreak) hopen
      rw [List.cons_append, hstep] at h ⊢
      rw [ih (by simpa using h)]

theorem blockCommentExtent_cut (h : (blockCommentExtent (p ++ v)).length ≤ p.length) :
    blockCommentExtent p = blockCommentExtent (p ++ v) := by
  cases v with
  | nil => rw [List.append_nil]
  | cons d w =>
    unfold blockCommentExtent at h ⊢
    cases hfound : lengthThrough? ['*', '/'] (p ++ d :: w) with
    | none =>
      rw [hfound] at h
      have h : (p ++ d :: w).length ≤ p.length := h
      rw [List.length_append, List.length_cons] at h
      omega
    | some n =>
      rw [hfound] at h
      have hfound' := lengthThrough?_local (by decide) hfound h []
      rw [List.append_nil] at hfound'
      rw [hfound']

theorem comment?_cut {l : Lexeme} (h : comment? (p ++ v) = some l)
    (hsize : l.size ≤ p.length + 1) : comment? p = some l := by
  cases p with
  | nil =>
    -- A comment begins with two characters.
    have hpos : 1 < l.size := by
      unfold comment? at h
      split at h
      · cases h
        exact Nat.succ_lt_succ (Nat.succ_pos _)
      · cases h
        exact Nat.succ_lt_succ (Nat.succ_pos _)
      · cases h
    exact absurd hsize (Nat.not_le_of_lt hpos)
  | cons c p =>
    rw [List.cons_append] at h
    unfold comment? at h ⊢
    split at h
    · rename_i hc
      obtain ⟨rfl, rfl⟩ := List.cons.inj hc
      cases h
      have hrun : lineCommentLength p = lineCommentLength (p ++ v) :=
        runLength_cut (Nat.le_of_succ_le_succ (Nat.le_of_succ_le_succ hsize))
      simp only [hrun]
    · rename_i hc
      obtain ⟨rfl, rfl⟩ := List.cons.inj hc
      cases h
      simp only [blockCommentExtent_cut (Nat.le_of_succ_le_succ (Nat.le_of_succ_le_succ hsize))]
    · cases h

theorem isSome_comment? (text : List Char) :
    (comment? text).isSome = text.head?.any (fun c => c == '/' || c == '*') := by
  unfold comment?
  split
  · rfl
  · rfl
  · rename_i hslash hstar
    cases text with
    | nil => rfl
    | cons c rest =>
      have hc : c ≠ '/' ∧ c ≠ '*' :=
        ⟨fun hc => hslash rest (hc ▸ rfl), fun hc => hstar rest (hc ▸ rfl)⟩
      simp [hc]

theorem comment?_cut_eq_none (h : comment? (p ++ v) = none) : comment? p = none := by
  rw [← Option.not_isSome_iff_eq_none, isSome_comment?] at h ⊢
  cases p with
  | nil => nofun
  | cons c p => exact h

/-! Marks. -/

theorem begins_append {op : Kind × Nat} (h : Operator.Begins p op) (v : List Char) :
    Operator.Begins (p ++ v) op := by
  obtain ⟨mark, hmark, hbegins, hlength⟩ := h
  exact ⟨mark, hmark, hbegins.trans (List.prefix_append p v), hlength⟩

theorem begins_cut {op : Kind × Nat} (h : Operator.Begins (p ++ v) op) (hsize : op.2 ≤ p.length) :
    Operator.Begins p op := by
  obtain ⟨mark, hmark, hbegins, hlength⟩ := h
  have hfits : mark.toList.length ≤ p.length := hlength ▸ hsize
  have hcut := List.prefix_of_prefix_length_le hbegins (List.prefix_append p v) hfits
  exact ⟨mark, hmark, hcut, hlength⟩

/-- The mark that begins a text is also the one where the text is cut after it: one that begins the
shorter text begins the longer one as well. -/
theorem mark_cut {c : Char} (h : (mark c (p ++ v)).size ≤ p.length + 1) :
    mark c p = mark c (p ++ v) := by
  unfold mark at h ⊢
  cases hmark : Operator.read? c (c :: (p ++ v)) with
  | none =>
    cases hcut : Operator.read? c (c :: p) with
    | none => rfl
    | some op =>
      obtain ⟨mark, htext, hbegins, -⟩ := begins_append (Operator.read?_begins hcut) v
      obtain ⟨_, _, _, hcons, hread, -⟩ := Operator.exists_read? htext hbegins
      obtain ⟨rfl, rfl⟩ := List.cons.inj hcons
      cases hmark.symm.trans hread
  | some op =>
    rw [hmark] at h
    obtain ⟨hbegins, hlongest⟩ := Operator.read?_eq_some_iff.mp hmark
    have hcut : Operator.read? c (c :: p) = some op := by
      refine Operator.read?_eq_some_iff.mpr ⟨begins_cut (p := c :: p) hbegins h, ?_⟩
      intro k mark htext hmark
      exact hlongest k mark htext (hmark.trans (List.prefix_append (c :: p) v))
    rw [hcut]

theorem xmlAttribute_cons [Alphabet] {c : Char} (hc : c ≠ '*') (rest : List Char) :
    xmlAttribute (c :: rest) =
      if isIdentifierStart c then { kind := .xmlAttribute, size := 1 + wordLength (c :: rest) }
      else invalid := xmlAttribute.eq_2 _ _ hc

theorem xmlAttribute_cut [Alphabet] (h : (xmlAttribute (p ++ v)).size ≤ p.length + 1) :
    xmlAttribute p = xmlAttribute (p ++ v) := by
  match p, v with
  | [], [] => rfl
  | [], d :: w =>
    rw [List.nil_append] at h ⊢
    by_cases hd : d = '*'
    · subst hd
      cases Nat.le_of_succ_le_succ h
    · rw [xmlAttribute_cons hd] at h ⊢
      split
      · rename_i hstart
        rw [if_pos hstart] at h
        have hpos : 0 < wordLength (d :: w) := wordLength_pos (by simp [startsWord, hstart])
        have h : 1 + wordLength (d :: w) ≤ 1 := h
        omega
      · rfl
  | c :: p, v =>
    rw [List.cons_append] at h ⊢
    by_cases hc : c = '*'
    · rw [hc, xmlAttribute, xmlAttribute]
    · rw [xmlAttribute_cons hc] at h
      rw [xmlAttribute_cons hc, xmlAttribute_cons hc]
      split
      · rename_i hstart
        rw [if_pos hstart] at h
        have h : 1 + wordLength (c :: p ++ v) ≤ 1 + (c :: p).length := by
          rw [Nat.add_comm 1 (c :: p).length]
          exact h
        rw [wordLength_cut (p := c :: p) (Nat.le_of_add_le_add_left h), List.cons_append]
      · rfl

theorem word_cut [Alphabet] {c : Char} (h : (word c (p ++ v)).size ≤ p.length + 1) :
    word c p = word c (p ++ v) := by
  have hsize : wordLength (c :: (p ++ v)) ≤ (c :: p).length := h
  have hlength : wordLength (c :: p) = wordLength (c :: (p ++ v)) :=
    wordLength_cut (p := c :: p) hsize
  have htext : (c :: (p ++ v)).take (wordLength (c :: (p ++ v))) =
      (c :: p).take (wordLength (c :: (p ++ v))) := List.take_append_of_le_length hsize
  unfold word
  simp only [hlength, htext]

/-! The dispatch of the scan. -/

theorem slash_cut [Alphabet] {operand : Bool} (h : (slash operand (p ++ v)).size ≤ p.length + 1) :
    slash operand p = slash operand (p ++ v) := by
  unfold slash at h ⊢
  cases hcomment : comment? (p ++ v) with
  | some l =>
    rw [hcomment] at h
    rw [comment?_cut hcomment h]
  | none =>
    rw [hcomment] at h
    rw [comment?_cut_eq_none hcomment]
    dsimp only at h ⊢
    split
    · rename_i hoperand
      rw [if_pos hoperand] at h
      exact mark_cut h
    · rename_i hoperand
      rw [if_neg hoperand] at h
      unfold regExp at h ⊢
      rw [regExpExtent_cut (Nat.le_of_succ_le_succ h)]

/-- A point begins a number only together with a digit. -/
theorem one_lt_number_point {rest : List Char} (h : rest.head?.any isDigit = true) :
    1 < (number '.' rest).size := by
  cases rest with
  | nil => cases h
  | cons d rest =>
    have hd : isDigit d = true := h
    have hpoint : isDigit '.' = false := rfl
    have hlength : 2 ≤ decimalLength ('.' :: d :: rest) := by
      simp only [decimalLength, runLength, List.takeWhile_cons, hpoint, hd, Bool.false_eq_true,
        if_false, if_true, List.length_nil, List.drop_zero, fractionLength, List.length_cons]
      omega
    exact hlength

/-- A backslash begins a word only together with the letter after it. -/
theorem one_lt_word_escape [Alphabet] (rest : List Char) : 1 < (word '\\' ('u' :: rest)).size :=
  Nat.succ_lt_succ (Nat.succ_pos (wordLength rest))

theorem plain_cut [Alphabet] {operand : Bool} {c : Char}
    (h : (plain operand c (p ++ v)).size ≤ p.length + 1) :
    CutTo (p.length + 1) (plain operand c (p ++ v)) (plain operand c p) := by
  unfold plain at h ⊢
  split
  · rename_i hline
    rw [if_pos hline] at h
    have hfeed : (c == '\r' && p.head? == some '\n') =
        (c == '\r' && (p ++ v).head? == some '\n') := by
      cases p with
      | cons => rfl
      | nil =>
        cases hfeed : c == '\r' && v.head? == some '\n' with
        | false => simp [hfeed]
        | true =>
          rw [List.nil_append, hfeed] at h
          exact absurd h (by decide)
    rw [hfeed]
    exact .same
  rename_i hline
  rw [if_neg hline] at h
  split
  · rename_i hspace
    rw [if_pos hspace] at h
    dsimp only at h
    rw [runLength_cut (p := p) (v := v) (by omega)]
    exact .same
  rename_i hspace
  rw [if_neg hspace] at h
  split
  · rename_i hquote
    rw [if_pos hquote] at h
    unfold string at h ⊢
    rw [stringExtent_cut (Nat.le_of_succ_le_succ h)]
    exact .same
  rename_i hquote
  rw [if_neg hquote] at h
  split
  · rename_i hat
    rw [if_pos hat] at h
    rw [xmlAttribute_cut h]
    exact .same
  rename_i hat
  rw [if_neg hat] at h
  have hpoint : (c == '.' && p.head?.any isDigit) = (c == '.' && (p ++ v).head?.any isDigit) := by
    cases p with
    | cons => rfl
    | nil =>
      cases hpoint : c == '.' && v.head?.any isDigit with
      | false => simp [hpoint]
      | true =>
        rw [List.nil_append, hpoint, Bool.or_true, if_pos rfl] at h
        rw [Bool.and_eq_true, beq_iff_eq] at hpoint
        obtain ⟨rfl, hdigit⟩ := hpoint
        exact absurd h (Nat.not_le_of_lt (one_lt_number_point hdigit))
  rw [hpoint]
  split
  · rename_i hnumber
    rw [if_pos hnumber] at h
    exact number_cut h
  rename_i hnumber
  rw [if_neg hnumber] at h
  have hstarts : startsWord c p = startsWord c (p ++ v) := by
    cases p with
    | cons => rfl
    | nil =>
      cases hescape : c == '\\' && v.head? == some 'u' with
      | false => simp [startsWord, hescape]
      | true =>
        have hword : startsWord c v = true := by rw [startsWord, hescape, Bool.or_true]
        rw [List.nil_append, if_pos hword] at h
        rw [Bool.and_eq_true, beq_iff_eq, beq_iff_eq] at hescape
        obtain ⟨rfl, hhead⟩ := hescape
        obtain ⟨rest, rfl⟩ := List.head?_eq_some_iff.mp hhead
        exact absurd h (Nat.not_le_of_lt (one_lt_word_escape rest))
  rw [hstarts]
  split
  · rename_i hword
    rw [if_pos hword] at h
    rw [word_cut h]
    exact .same
  rename_i hword
  rw [if_neg hword] at h
  split
  · rename_i hslash
    rw [if_pos hslash] at h
    rw [slash_cut h]
    exact .same
  · rename_i hslash
    rw [if_neg hslash] at h
    rw [mark_cut h]
    exact .same

/-- Where no XML literals are read there are only plain lexemes and braces. -/
theorem next_false [Alphabet] (operand : Bool) (c : Char) (rest : List Char) :
    next false operand [] c rest =
      (if c == '\x7b' || c == '\x7d' then mark c rest else plain operand c rest, []) := by
  change ordinary false operand [] c rest = _
  unfold ordinary
  rw [Bool.and_false, Bool.false_and, Bool.false_and, if_neg Bool.false_ne_true]
  cases c == '\x7b' <;> cases c == '\x7d' <;> rfl

/-- A lexeme that ends before a place is read alike where the text is cut there, but for the kind of
a number. -/
theorem next_cut [Alphabet] {operand : Bool} {c : Char}
    (h : (next false operand [] c (p ++ v)).1.size ≤ p.length + 1) :
    CutTo (p.length + 1) (next false operand [] c (p ++ v)).1 (next false operand [] c p).1 := by
  rw [next_false] at h
  rw [next_false, next_false]
  dsimp only at h ⊢
  split
  · rename_i hbrace
    rw [if_pos hbrace] at h
    rw [mark_cut h]
    exact .same
  · rename_i hbrace
    rw [if_neg hbrace] at h
    exact plain_cut h

end Lexeme
end ScriptTree
