import ScriptTree.Proofs.ScannerReaders
import ScriptTree.Scanner.Call

/-!
A call of the scanner reads the lexeme that begins at its place. The readers are put together here:
marks, XML text turn by turn, and a whole call, which goes as many characters on as its lexeme has.
-/
namespace ScriptTree
open CharClass

namespace XmlState
open Head

/-- A section of XML text is opened by characters that are bytes of their own, and so is the mark
that closes it. -/
theorem section?_plain {text : List Char} {opening : Nat} {mark : List Char}
    (h : section? text = some (opening, mark)) :
    0 < opening ∧ (∀ c ∈ text.take opening, c.toNat < 128) ∧ IsPlainMark mark := by
  have hplain {front : String} (hfront : ∀ c ∈ front.toList, c.toNat < 128)
      (hp : Operator.startsWith text front = true) :
      ∀ c ∈ text.take front.toList.length, c.toNat < 128 := by
    rwa [← List.prefix_iff_eq_take.mp (List.isPrefixOf_iff_prefix.mp hp)]
  unfold section? at h
  split at h
  · rename_i hp
    cases h
    exact ⟨by decide, hplain (by simp) hp, by simp [IsPlainMark]⟩
  split at h
  · rename_i hp
    cases h
    exact ⟨by decide, hplain (by simp) hp, by simp [IsPlainMark]⟩
  split at h
  · rename_i hp
    cases h
    exact ⟨by decide, hplain (by simp) hp, by simp [IsPlainMark]⟩
  · cases h

/-- What a turn comes to at `h`, where the state is `s` and `n` characters follow the first one, by
the step of that one. An unclosed section runs to the end of the input. -/
inductive Matches (s : XmlState) (h : Head) (n : Nat) : XmlStep → XmlTurn → Prop where
  | embed : Matches s h n .embed (.done (.embedded s, h))
  | finish (more : Nat) : Matches s h n (.finish more) (.done (.closed, h.past (more + 1)))
  | proceed (more : Nat) (s' : XmlState) (hmore : more ≤ n) :
    Matches s h n (.proceed more s') (.again (s', h.past (more + 1)))
  | unclosed : Matches s h n (.proceed n s) (.done (.endOfInput, h.past (n + 1)))

theorem afterClose_matches (s₀ s : XmlState) (h : Head) {more n : Nat} (hmore : more ≤ n) :
    Matches s₀ h n (s.proceedOrFinish more) (s.afterClose (h.past (more + 1))) := by
  unfold proceedOrFinish afterClose
  split
  · exact .finish more
  · exact .proceed more s hmore

theorem tagTurn_matches (s : XmlState) (pos : Nat) (c : Char) (rest : List Char) :
    ∃ t, s.tagTurn c ⟨pos, c :: rest⟩ = some t ∧
      Matches s ⟨pos, c :: rest⟩ rest.length (s.tagStep c rest) t := by
  unfold tagTurn tagStep
  rw [charAt?_one]
  split
  · rename_i hquote
    have hc := toNat_lt_of_beq hquote (by decide) (by decide)
    exact ⟨_, by rw [advance_one hc]; rfl, .proceed 0 _ (Nat.zero_le _)⟩
  split
  · rename_i hslash
    rw [Bool.and_eq_true, beq_iff_eq, beq_iff_eq] at hslash
    obtain ⟨rfl, hend⟩ := hslash
    obtain ⟨tail, rfl⟩ := List.head?_eq_some_iff.mp hend
    exact ⟨_, by rw [advance_two (by decide) (by decide)]; rfl,
      afterClose_matches s _ _ (by simp)⟩
  split
  · rename_i hend
    obtain rfl : c = '>' := by simpa using hend
    rw [advance_one (by decide)]
    split
    · exact ⟨_, rfl, afterClose_matches s _ _ (Nat.zero_le _)⟩
    · exact ⟨_, rfl, .proceed 0 _ (Nat.zero_le _)⟩
  · exact ⟨_, by rw [advanceChar_cons]; rfl, .proceed 0 _ (Nat.zero_le _)⟩

theorem bracketTurn_matches (s : XmlState) (pos : Nat) (rest : List Char) :
    ∃ t, s.bracketTurn ⟨pos, '<' :: rest⟩ = some t ∧
      Matches s ⟨pos, '<' :: rest⟩ rest.length (s.bracketStep rest) t := by
  rw [bracketTurn, bracketStep, charAt?_one]
  cases hsection : section? ('<' :: rest) with
  | some commented =>
    obtain ⟨opening, mark⟩ := commented
    obtain ⟨hpos, hplain, hmark⟩ := section?_plain hsection
    have hopening := section?_opening_le hsection
    obtain ⟨k, rfl⟩ := Nat.exists_eq_succ_of_ne_zero (Nat.ne_of_gt hpos)
    have hdrop : ('<' :: rest).drop (k + 1) = rest.drop k := rfl
    dsimp only
    rw [skipPast_eq hopening hplain hmark, hdrop, Nat.succ_sub_one]
    cases hfind : lengthThrough? mark (rest.drop k) with
    | none => exact ⟨_, rfl, .unclosed⟩
    | some n =>
      have hle := lengthThrough?_le hfind
      rw [List.length_drop] at hle
      have hk : k ≤ rest.length := Nat.le_of_succ_le_succ hopening
      have hstop : k.succ + n = k + n + 1 := by omega
      refine ⟨_, rfl, ?_⟩
      dsimp only
      rw [hstop]
      exact afterClose_matches s _ _ (by omega)
  | none =>
    dsimp only
    split
    · rename_i hslash
      obtain ⟨tail, rfl⟩ := List.head?_eq_some_iff.mp (by simpa using hslash)
      exact ⟨_, by rw [advance_two (by decide) (by decide)]; rfl, .proceed 1 _ (by simp)⟩
    · exact ⟨_, by rw [advance_one (by decide)]; rfl, .proceed 0 _ (Nat.zero_le _)⟩

/-- A turn goes with the step of the character that comes next. -/
theorem turn_matches (s : XmlState) (pos : Nat) (c : Char) (rest : List Char) :
    ∃ t, turn (s, ⟨pos, c :: rest⟩) = some t ∧
      Matches s ⟨pos, c :: rest⟩ rest.length (s.step c rest) t := by
  simp only [turn, char?_cons, step]
  cases s.quote with
  | some q => exact ⟨_, by rw [advanceChar_cons]; rfl, .proceed 0 _ (Nat.zero_le _)⟩
  | none =>
    dsimp only
    split
    · exact ⟨_, rfl, .embed⟩
    split
    · exact tagTurn_matches s pos c rest
    split
    · rename_i hbracket
      obtain rfl : c = '<' := by simpa using hbracket
      exact bracketTurn_matches s pos rest
    · exact ⟨_, by rw [advanceChar_cons]; rfl, .proceed 0 _ (Nat.zero_le _)⟩

theorem stretch_skip {skip : Nat} {s : XmlState} {text : List Char} (h : skip ≤ text.length) :
    stretch skip s text =
      (skip + (stretch 0 s (text.drop skip)).1, (stretch 0 s (text.drop skip)).2) := by
  induction text generalizing skip with
  | nil =>
    obtain rfl : skip = 0 := Nat.le_zero.mp h
    rfl
  | cons c rest ih =>
    cases skip with
    | zero => simp
    | succ skip =>
      rw [stretch, ih (Nat.le_of_succ_le_succ h)]
      simp only [List.drop_succ_cons]
      congr 1
      omega

/-- XML text is read to the end of its stretch. -/
theorem read_eq (s : XmlState) (h : Head) :
    s.read h = some ((s.stretch 0 h.rest).2, h.past (s.stretch 0 h.rest).1) := by
  refine turns_eq (s := (s, h)) (P := fun _ => True) (m := fun s => s.2.rest.length)
    (f := fun s : XmlState × Head =>
      ((s.1.stretch 0 s.2.rest).2, s.2.past (s.1.stretch 0 s.2.rest).1))
    (fun s _ => ?_) trivial (Nat.lt_succ_self _)
  obtain ⟨s, pos, text⟩ := s
  cases text with
  | nil => exact .done rfl
  | cons c rest =>
    obtain ⟨t, hturn, hmatches⟩ := turn_matches s pos c rest
    dsimp only
    rw [stretch]
    generalize s.step c rest = step at hmatches
    cases hmatches with
    | embed => exact .done hturn
    | finish more => exact .done hturn
    | unclosed =>
      refine .done ?_
      dsimp only
      rw [hturn, stretch_skip (Nat.le_refl _), List.drop_length]
      rfl
    | proceed more s' hmore =>
      refine .again _ hturn trivial (length_past_lt pos c rest more) ?_
      dsimp only
      rw [stretch_skip hmore, past_past, past_rest, Nat.add_right_comm]
      rfl

end XmlState

namespace Head

theorem pos_lt_past {h : Head} {n : Nat} (hn : 0 < n) (hrest : h.rest ≠ []) :
    h.pos < (h.past n).pos := by
  have hbytes : 0 < byteLength (h.rest.take n) := by
    apply byteLength_pos
    simp [hrest, Nat.ne_of_gt hn]
  exact Nat.lt_add_of_pos_right hbytes

/-- What a call gives when it has read a lexeme. -/
def scanned (h : Head) (l : Lexeme × List Mode) : Scanned where
  token := some l.1
  stop := h.past l.1.size
  modes := l.2

/-! XML text. -/

theorem scanXml_eq {state : XmlState} {c : Char} (hc : (c == '{' && state.quote.isNone) = false)
    (outer : List Mode) (pos : Nat) (rest : List Char) :
    scanXml state outer ⟨pos, c :: rest⟩ =
      some (scanned ⟨pos, c :: rest⟩ (Lexeme.xmlText state outer c rest)) := by
  have hpos := XmlState.stretch_pos hc rest
  rw [scanXml, XmlState.read_eq, Lexeme.xmlText]
  generalize XmlState.stretch 0 state (c :: rest) = e at hpos
  obtain ⟨n, e⟩ := e
  have hlt : pos < (past ⟨pos, c :: rest⟩ n).pos :=
    pos_lt_past (h := ⟨pos, c :: rest⟩) hpos (List.cons_ne_nil c rest)
  cases e with
  | closed => rfl
  | embedded s => simp [scanned, hlt]
  | endOfInput => simp [scanned, hlt]

/-- An embedded expression follows at once. -/
theorem scanXml_embedded {state : XmlState} (hquote : state.quote = none) (outer : List Mode)
    (pos : Nat) (rest : List Char) :
    scanXml state outer ⟨pos, '{' :: rest⟩ = some {
      token := none
      stop := ⟨pos, '{' :: rest⟩
      modes := .embedded 0 :: .xml state :: outer } := by
  have hstretch : state.stretch 0 ('{' :: rest) = (0, .embedded state) := by
    simp [XmlState.stretch, XmlState.step, hquote]
  simp [scanXml, XmlState.read_eq, hstretch]

theorem scanXml_end (state : XmlState) (outer : List Mode) (pos : Nat) :
    scanXml state outer ⟨pos, []⟩ =
      some { token := none, stop := ⟨pos, []⟩, modes := outer, cutShort := true } := by
  simp [scanXml, XmlState.read_eq, XmlState.stretch]

/-! Marks. -/

theorem punctuationText?_small {k : Kind} {mark : String} (h : k.punctuationText? = some mark) :
    ∀ c ∈ mark.toList, c.toNat < 128 := by
  cases k <;> cases h <;> simp

theorem mark_eq {h : Head} {op : Kind × Nat} (hop : Operator.Begins h.rest op) :
    h.mark op = some ({ kind := op.1 }, h.past op.2) := by
  obtain ⟨text, htext, hbegins, hlength⟩ := hop
  have hadvance : h.advance op.2 = some (h.past op.2) := by
    apply advance_plain
    · rw [← hlength]
      exact hbegins.length_le
    · rw [← hlength, ← List.prefix_iff_eq_take.mp hbegins]
      exact punctuationText?_small htext
  simp [mark, hadvance]

theorem mark_eq_lexeme {c : Char} {rest : List Char} {op : Kind × Nat}
    (hop : Operator.read? c (c :: rest) = some op) (pos : Nat) :
    mark op ⟨pos, c :: rest⟩ =
      some (↑(Lexeme.mark c rest), past ⟨pos, c :: rest⟩ (Lexeme.mark c rest).size) := by
  have hmark := mark_eq (h := ⟨pos, c :: rest⟩) (Operator.read?_begins hop)
  simp [hmark, Lexeme.mark, hop]

section
variable [Alphabet]

/-- A character that begins a mark begins nothing else, but for a point and a slash. -/
theorem other_of_read? {c : Char} {text : List Char} {op : Kind × Nat}
    (h : Operator.read? c text = some op) (rest : List Char) :
    isLineBreak c = false ∧ isBlank c = false ∧ (c == '"' || c == '\'') = false ∧
      (c == '@') = false ∧ isDigit c = false ∧ Lexeme.startsWord c rest = false := by
  unfold Operator.read? at h
  split at h
  case h_25 => cases h
  all_goals exact ⟨rfl, rfl, rfl, rfl, rfl, rfl⟩

theorem slash_eq (afterOperand : Bool) (pos : Nat) (rest : List Char) :
    slash afterOperand ⟨pos, '/' :: rest⟩ =
      some (↑(Lexeme.slash afterOperand rest),
        past ⟨pos, '/' :: rest⟩ (Lexeme.slash afterOperand rest).size) := by
  by_cases hline : rest.head? = some '/'
  · obtain ⟨tail, rfl⟩ := List.head?_eq_some_iff.mp hline
    simp [slash, Lexeme.slash, Lexeme.comment?, lineComment_eq]
  by_cases hblock : rest.head? = some '*'
  · obtain ⟨tail, rfl⟩ := List.head?_eq_some_iff.mp hblock
    simp [slash, Lexeme.slash, Lexeme.comment?, blockComment_eq, Lexeme.delimited, Extent.after]
  have hcomment : Lexeme.comment? rest = none := by
    unfold Lexeme.comment?
    split
    · exact absurd rfl hline
    · exact absurd rfl hblock
    · rfl
  have hmark : mark (Operator.slash ('/' :: rest)) ⟨pos, '/' :: rest⟩ = _ :=
    mark_eq_lexeme rfl pos
  unfold slash
  rw [charAt?_one, Lexeme.slash, hcomment]
  split
  · exact absurd (by assumption) hline
  · exact absurd (by assumption) hblock
  · cases afterOperand with
    | true => exact hmark
    | false => exact regExp_eq pos rest

theorem lineEnd_eq {c : Char} (hbreak : isLineBreak c = true) (afterOperand : Bool) (pos : Nat)
    (rest : List Char) :
    plain afterOperand c ⟨pos, c :: rest⟩ = some ({ kind := .eol },
      past ⟨pos, c :: rest⟩ (if c == '\r' && rest.head? == some '\n' then 2 else 1)) := by
  by_cases hreturn : c = '\r'
  · subst hreturn
    cases rest with
    | nil => simp [plain, advance_one, past_succ]
    | cons d tail =>
      by_cases hd : d = '\n'
      · subst hd
        simp [plain, advance_one, past_succ]
      · simp [plain, advance_one, past_succ, hd]
  · have hother : (c == '\n' || c == '\u2028' || c == '\u2029') = true := by
      simp only [isLineBreak, Bool.or_eq_true, beq_iff_eq] at hbreak ⊢
      tauto
    simp [plain, hother, hreturn, advanceChar_cons]

theorem dot_eq (afterOperand : Bool) (pos : Nat) (rest : List Char) :
    plain afterOperand '.' ⟨pos, '.' :: rest⟩ =
      some (↑(Lexeme.plain afterOperand '.' rest),
        past ⟨pos, '.' :: rest⟩ (Lexeme.plain afterOperand '.' rest).size) := by
  have hplain : plain afterOperand '.' ⟨pos, '.' :: rest⟩ = dot ⟨pos, '.' :: rest⟩ := rfl
  have hlexeme : Lexeme.plain afterOperand '.' rest =
      if rest.head?.any isDigit then Lexeme.number '.' rest else Lexeme.mark '.' rest := rfl
  rw [hplain, hlexeme, dot, charAt?_one]
  split
  · exact number_eq pos '.' rest
  · exact mark_eq_lexeme rfl pos

theorem plain_eq (afterOperand : Bool) (pos : Nat) (c : Char) (rest : List Char) :
    plain afterOperand c ⟨pos, c :: rest⟩ =
      some (↑(Lexeme.plain afterOperand c rest),
        past ⟨pos, c :: rest⟩ (Lexeme.plain afterOperand c rest).size) := by
  cases hbreak : isLineBreak c with
  | true => rw [lineEnd_eq hbreak, Lexeme.plain, if_pos hbreak]
  | false =>
    have hend : (c == '\n' || c == '\u2028' || c == '\u2029') = false ∧ (c == '\r') = false := by
      simp only [isLineBreak, Bool.or_eq_false_iff] at hbreak ⊢
      tauto
    cases hblank : isBlank c with
    | true => simp [plain, hend, hblank, whiteSpace_eq hblank, Lexeme.plain, hbreak]
    | false =>
      by_cases hdot : c = '.'
      · subst hdot
        exact dot_eq afterOperand pos rest
      by_cases hslash : c = '/'
      · subst hslash
        exact slash_eq afterOperand pos rest
      cases hop : Operator.read? c (c :: rest) with
      | some op =>
        obtain ⟨-, -, hquote, hat, hdigit, hword⟩ := other_of_read? hop rest
        have hlexeme : Lexeme.plain afterOperand c rest = Lexeme.mark c rest := by
          simp only [Lexeme.plain, hbreak, hblank, hquote, hat, hdigit, hword, hslash, beq_iff_eq,
            beq_eq_false_iff_ne.mpr hdot, Bool.false_and, Bool.or_false, Bool.false_eq_true,
            if_false]
        rw [hlexeme, ← mark_eq_lexeme hop]
        simp [plain, hend, hblank, hdot, hslash, hop]
      | none =>
        have hplain : plain afterOperand c ⟨pos, c :: rest⟩ =
            if c == '\'' || c == '"' then string c ⟨pos, c :: rest⟩
            else if c == '@' then xmlAttribute ⟨pos, c :: rest⟩
            else if isDigit c then number ⟨pos, c :: rest⟩
            else if Lexeme.startsWord c rest then word ⟨pos, c :: rest⟩
            else some (.invalid, past ⟨pos, c :: rest⟩ 1) := by
          cases hstart : isIdentifierStart c <;>
            cases hescape : c == '\\' && rest.head? == some 'u' <;>
            simp [plain, hend, hblank, hdot, hslash, hop, Lexeme.startsWord, hstart, hescape,
              advanceChar_cons]
        have hlexeme : Lexeme.plain afterOperand c rest =
            if c == '\'' || c == '"' then Lexeme.string c rest
            else if c == '@' then Lexeme.xmlAttribute rest
            else if isDigit c then Lexeme.number c rest
            else if Lexeme.startsWord c rest then Lexeme.word c rest
            else .invalid := by
          simp [Lexeme.plain, hbreak, hblank, hdot, hslash, Lexeme.mark, hop, Bool.or_comm]
        rw [hplain, hlexeme]
        split
        · rename_i hquote
          rw [Bool.or_eq_true, beq_iff_eq, beq_iff_eq] at hquote
          exact string_eq hquote.symm pos rest
        split
        · rename_i hat
          obtain rfl : c = '@' := by simpa using hat
          exact xmlAttribute_eq pos rest
        split
        · exact number_eq pos c rest
        split
        · exact word_eq pos c rest
        · rfl

/-! A whole call. -/

/-- An opening angle bracket begins an XML literal or is an operator. -/
theorem lessThan_eq (xmlLiterals afterOperand : Bool) (modes : List Mode) (pos : Nat)
    (rest : List Char) :
    lessThan xmlLiterals afterOperand modes ⟨pos, '<' :: rest⟩ =
      some (scanned ⟨pos, '<' :: rest⟩
        (Lexeme.ordinary xmlLiterals afterOperand modes '<' rest)) := by
  have hstarts : startsXml ⟨pos, '<' :: rest⟩ = Lexeme.startsXml rest := by
    rw [startsXml, charAt?_one, Lexeme.startsXml]
  have hmark : mark (Operator.lessThan ('<' :: rest)) ⟨pos, '<' :: rest⟩ = _ :=
    mark_eq_lexeme rfl pos
  rw [lessThan, hstarts]
  cases hxml : xmlLiterals && !afterOperand && Lexeme.startsXml rest with
  | true =>
    have hlexeme : Lexeme.ordinary xmlLiterals afterOperand modes '<' rest =
        Lexeme.xmlText {} modes '<' rest := by
      simp only [Bool.and_eq_true] at hxml
      simp [Lexeme.ordinary, hxml]
    rw [hlexeme, scanXml_eq (by rfl)]
    rfl
  | false =>
    have hlexeme : Lexeme.ordinary xmlLiterals afterOperand modes '<' rest =
        (Lexeme.mark '<' rest, modes) := by
      have hplain : Lexeme.plain afterOperand '<' rest = Lexeme.mark '<' rest := rfl
      simp [Lexeme.ordinary, hxml, hplain]
    rw [hlexeme]
    simp [hmark, scanned]

/-- Outside XML text a call reads an ordinary lexeme. -/
theorem scanToken_eq (xmlLiterals afterOperand : Bool) (modes : List Mode) (pos : Nat) (c : Char)
    (rest : List Char) :
    scanToken xmlLiterals afterOperand modes ⟨pos, c :: rest⟩ =
      some (scanned ⟨pos, c :: rest⟩
        (Lexeme.ordinary xmlLiterals afterOperand modes c rest)) := by
  by_cases hopen : c = '{'
  · subst hopen
    simp [scanToken, advance_one, Lexeme.ordinary, scanned, Lexeme.mark, Operator.read?]
  by_cases hclose : c = '}'
  · subst hclose
    simp [scanToken, advance_one, Lexeme.ordinary, scanned, Lexeme.mark, Operator.read?]
  by_cases hbracket : c = '<'
  · subst hbracket
    exact lessThan_eq xmlLiterals afterOperand modes pos rest
  simp [scanToken, hopen, hclose, hbracket, plain_eq, Lexeme.ordinary, scanned]

/-- A call reads the lexeme that comes next. -/
theorem scan_eq (xmlLiterals afterOperand : Bool) (modes : List Mode) (pos : Nat) (c : Char)
    (rest : List Char) :
    scan xmlLiterals afterOperand modes ⟨pos, c :: rest⟩ =
      some (scanned ⟨pos, c :: rest⟩ (Lexeme.next xmlLiterals afterOperand modes c rest)) := by
  rcases modes with _ | ⟨state | braces, outer⟩
  · exact scanToken_eq xmlLiterals afterOperand [] pos c rest
  · rw [scan, Lexeme.next]
    split
    · rename_i hbrace
      rw [Bool.and_eq_true, beq_iff_eq, Option.isNone_iff_eq_none] at hbrace
      obtain ⟨rfl, hquote⟩ := hbrace
      simp [scanXml_embedded hquote, scanToken_eq, scanned]
    · rename_i hbrace
      rw [scanXml_eq (Bool.eq_false_iff.mpr hbrace)]
      rfl
  · exact scanToken_eq xmlLiterals afterOperand (.embedded braces :: outer) pos c rest

/-- At the end of the input there is no token. An XML literal that would go on is given up. -/
theorem scan_end (xmlLiterals afterOperand : Bool) (modes : List Mode) (pos : Nat) :
    scan xmlLiterals afterOperand modes ⟨pos, []⟩ = some (match modes with
      | .xml _ :: outer => { token := none, stop := ⟨pos, []⟩, modes := outer, cutShort := true }
      | _ => { token := none, stop := ⟨pos, []⟩, modes }) := by
  unfold scan
  split
  · simp [scanXml_end, scanToken]
  · simp [scanToken]

end
end Head
end ScriptTree
