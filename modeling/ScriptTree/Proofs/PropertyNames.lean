import ScriptTree.Proofs.WordNeighbours

/-!
Keywords as names of properties. The grammar takes any word after a selecting mark for a name, but
the scan goes by the kind of the word alone: after a keyword that ends no operand, a slash begins a
regular expression and an angle bracket may begin an XML literal. Where neither comes next, a
keyword can be replaced by any name without changing another token.
-/
namespace ScriptTree
open CharClass

/-- A word that is spelled like no keyword. -/
structure IsFreeName [Alphabet] (name : String) : Prop where
  starts : ∃ c rest, name.toList = c :: rest ∧ Lexeme.startsWord c rest = true
  whole : Lexeme.wordLength name.toList = name.toList.length
  not_keyword : Kind.ofKeyword? name = none

namespace Lexeme
variable [Alphabet]

theorem wordLength_eq_zero {after : List Char} (h : EndsWord after) : wordLength after = 0 := by
  fun_induction wordLength after with
  | case1 rest => exact absurd ⟨rest, rfl⟩ h.escape
  | case2 c rest _ hpart => cases (h.head c rfl).symm.trans hpart
  | case3 | case4 => rfl

/-- A word is read to its end where no word goes on. -/
theorem wordLength_append {word after : List Char} (hword : wordLength word = word.length)
    (h : EndsWord after) : wordLength (word ++ after) = word.length := by
  fun_induction wordLength word with
  | case1 rest ih =>
    simp only [List.cons_append, wordLength, List.length_cons]
    rw [ih (by simpa using hword)]
  | case2 c rest _ hpart ih =>
    have hescape : ∀ tail, c = '\\' → rest ++ after = 'u' :: tail → False := by
      rintro _ rfl
      cases hpart
    rw [List.cons_append, wordLength.eq_2 _ _ hescape, if_pos hpart, ih (by simpa using hword)]
    rfl
  | case3 => cases hword
  | case4 => exact wordLength_eq_zero h

theorem startsWord_append {c : Char} {rest : List Char} (h : startsWord c rest = true)
    (after : List Char) : startsWord c (rest ++ after) = true := by
  cases rest with
  | nil =>
    simp only [startsWord, List.head?_nil, Bool.or_eq_true, Bool.and_eq_true] at h ⊢
    exact .inl (h.resolve_right fun hescape => by cases hescape.2)
  | cons => exact h

end Lexeme

/-- A name is read as one, up to where it ends. -/
theorem IsFreeName.word_append [Alphabet] {name : String} (h : IsFreeName name) {c : Char}
    {rest after : List Char} (hname : name.toList = c :: rest) (hafter : EndsWord after) :
    Lexeme.word c (rest ++ after) = { kind := .identifier, size := rest.length + 1 } := by
  have hlength : Lexeme.wordLength (c :: (rest ++ after)) = rest.length + 1 := by
    have hwhole := Lexeme.wordLength_append h.whole hafter
    rwa [hname] at hwhole
  have htake : (c :: (rest ++ after)).take (rest.length + 1) = name.toList := by
    simp [hname]
  unfold Lexeme.word
  dsimp only
  rw [hlength, htake, String.ofList_toList, h.not_keyword]
  rfl

namespace Passes
variable [Alphabet] {xmlLiterals operand operand' : Bool} {modes modes' : List Mode} {s s' : Ahead}
  {ts : List (Kind × List Char)} {x x' : Char} {p v text : List Char}

/-- A gap before a word is read alike before every other word. -/
theorem gap (hx : IsWordStart x) (hx' : IsWordStart x')
    (h : Passes xmlLiterals ⟨p ++ x :: v, modes, operand⟩ ts ⟨x :: v, modes', operand'⟩)
    (hts : ∀ t ∈ ts, t.1.isGap = true) (v' : List Char) :
    Passes xmlLiterals ⟨p ++ x' :: v', modes, operand⟩ ts ⟨x' :: v', modes', operand'⟩ := by
  induction ts generalizing p modes operand with
  | nil =>
    obtain ⟨hrest, rfl, rfl⟩ := Ahead.mk.inj h.eq_of_nil
    obtain rfl : p = [] := by simpa using hrest
    exact .refl
  | cons t ts ih =>
    obtain ⟨c, p, l, modes₁, rfl, hle, rfl, hnext, h⟩ := h.exists_cons
    obtain ⟨hgap, hts⟩ := List.forall_mem_cons.mp hts
    have hnext' : Lexeme.next xmlLiterals operand modes c (p ++ x' :: v') =
        Lexeme.next xmlLiterals operand modes c (p ++ x :: v) :=
      Lexeme.next_gap hx hx' (by rw [hnext]; exact hgap)
        (by rw [hnext]; exact Nat.sub_le_of_le_add hle) v'
    exact .cons hle (hnext'.trans hnext) (ih h hts)

theorem modes_of_isHidden {c : Char} {rest : List Char} {l : Lexeme}
    (hnext : Lexeme.next xmlLiterals operand modes c rest = (l, modes'))
    (h : l.kind.isHidden = true) : modes' = modes := by
  have hmodes : (Lexeme.next xmlLiterals operand modes c rest).2 = modes :=
    Lexeme.modes_of_isGap (by rw [hnext, Kind.isGap, h]; rfl)
  rw [hnext] at hmodes
  exact hmodes

/-- Lexemes are read after the end of an operand as they are elsewhere, if the first significant one
of them begins no operand. -/
theorem after_operand (houtside : Mode.inXml modes = false)
    (h : Passes xmlLiterals ⟨text, modes, operand⟩ ts s)
    (hts : ∀ t, ts.find? (!·.1.isHidden) = some t → t.1.isRegExpOrXml = false) :
    ∃ s', Passes xmlLiterals ⟨text, modes, true⟩ ts s' ∧ s'.rest = s.rest := by
  induction ts generalizing text modes operand with
  | nil =>
    obtain rfl := h.eq_of_nil
    exact ⟨_, .refl, rfl⟩
  | cons t ts ih =>
    cases h with
    | @step _ _ c rest l modes₁ _ _ hnext hlater =>
      rw [List.find?_cons] at hts
      dsimp only at hts
      cases hhidden : l.kind.isHidden with
      | true =>
        rw [hhidden] at hts
        obtain rfl := modes_of_isHidden hnext hhidden
        have hnext' := Lexeme.next_operand houtside
          (by rw [hnext]; exact Kind.isRegExpOrXml_of_isHidden hhidden)
        obtain ⟨s', hlater', hrest⟩ := ih houtside hlater hts
        refine ⟨s', .step (hnext'.trans hnext) ?_, hrest⟩
        rw [Kind.operandAfter, if_pos hhidden]
        exact hlater'
      | false =>
        rw [hhidden] at hts
        have hnext' := Lexeme.next_operand houtside
          (by rw [hnext]; exact hts _ rfl)
        refine ⟨s, .step (hnext'.trans hnext) ?_, rfl⟩
        rw [Kind.operandAfter, hhidden] at hlater ⊢
        exact hlater

/-- The first significant lexeme after the end of an operand begins none. -/
theorem first_after_operand (houtside : Mode.inXml modes = false)
    (h : Passes xmlLiterals ⟨text, modes, true⟩ ts s) :
    ∀ t, ts.find? (!·.1.isHidden) = some t → t.1.isRegExpOrXml = false := by
  induction ts generalizing text modes with
  | nil => nofun
  | cons t ts ih =>
    cases h with
    | @step _ _ c rest l modes₁ _ _ hnext hlater =>
      rw [List.find?_cons]
      dsimp only
      cases hhidden : l.kind.isHidden with
      | true =>
        obtain rfl := modes_of_isHidden hnext hhidden
        rw [Kind.operandAfter, if_pos hhidden] at hlater
        exact ih houtside hlater
      | false =>
        rintro _ ⟨⟩
        have hkind : (Lexeme.next xmlLiterals true modes c rest).1.kind.isRegExpOrXml = false :=
          Lexeme.next_true_isRegExpOrXml houtside
        rw [hnext] at hkind
        exact hkind

/-- A name is read in the place of a keyword, as the end of an operand. -/
theorem rename [Alphabet.Spaced] {t : Kind × List Char} {name : String} {after : List Char}
    (hname : IsFreeName name)
    (ht : t.1.isKeyword = true)
    (h : Passes xmlLiterals ⟨text, modes, operand⟩ [t] ⟨after, modes', operand'⟩) :
    modes' = modes ∧ Mode.inXml modes = false ∧ (∃ x v, text = x :: v ∧ IsWordStart x) ∧
      Passes xmlLiterals ⟨name.toList ++ after, modes, operand⟩ [(.identifier, name.toList)]
        ⟨after, modes, true⟩ := by
  cases h with
  | @step _ _ c rest l modes₁ _ _ hnext hlater =>
    obtain ⟨hrest, rfl, -⟩ := Ahead.mk.inj hlater.eq_of_nil
    obtain ⟨houtside, hword⟩ := Lexeme.next_isKeyword (by rw [hnext]; exact ht)
    obtain ⟨rfl, rfl⟩ := Prod.mk.inj (hnext.symm.trans (Lexeme.next_word houtside hword))
    refine ⟨rfl, houtside, ⟨c, rest, rfl, Lexeme.isWordStart_of_startsWord hword⟩, ?_⟩
    have hends : EndsWord after := hrest ▸ Lexeme.endsWord_drop (c :: rest)
    obtain ⟨x, tail, hx, hstarts⟩ := hname.starts
    have hread : Lexeme.next xmlLiterals operand modes₁ x (tail ++ after) =
        ({ kind := .identifier, size := tail.length + 1 }, modes₁) := by
      rw [Lexeme.next_word houtside (Lexeme.startsWord_append hstarts after),
        hname.word_append hx hends]
    rw [hx]
    exact single hread rfl

/-- A name is read in the place of a keyword after a selecting mark, and so is all before it. -/
theorem rename_selected [Alphabet.Spaced] {mark t : Kind × List Char}
    {gap : List (Kind × List Char)} {name : String} {after : List Char} {d : Char}
    {tail : List Char} (hname : IsFreeName name)
    (hd : d = '.' ∨ d = ':') (hmark : mark.2 = d :: tail)
    (hgap : ∀ u ∈ mark :: gap, u.1.isGap = true) (ht : t.1.isKeyword = true)
    (h : Passes xmlLiterals ⟨text, modes, operand⟩ (ts ++ (mark :: gap ++ [t]))
      ⟨after, modes', operand'⟩) :
    Mode.inXml modes' = false ∧
      Passes xmlLiterals
        ⟨(ts ++ mark :: gap).flatMap Prod.snd ++ (name.toList ++ after), modes, operand⟩
        (ts ++ (mark :: gap ++ [(.identifier, name.toList)])) ⟨after, modes', true⟩ := by
  obtain ⟨⟨text₁, modes₁, operand₁⟩, hbefore, h⟩ := h.split
  obtain ⟨⟨text₂, modes₂, operand₂⟩, hselect, hkeyword⟩ := h.split
  obtain ⟨rfl, houtside, ⟨x, v, rfl, hx⟩, hrename⟩ := hkeyword.rename hname ht
  obtain ⟨x', v', hx', hstarts⟩ := hname.starts
  have htext := hbefore.rest_eq
  have htext₁ := hselect.rest_eq
  dsimp only at htext htext₁
  rw [List.flatMap_cons, hmark] at htext₁
  subst htext₁ htext
  rw [hx'] at hrename
  have hselect' := hselect.gap hx (Lexeme.isWordStart_of_startsWord hstarts) hgap (v' ++ after)
  have hbefore' := hbefore.before_mark hd
    (tail ++ gap.flatMap Prod.snd ++ x' :: (v' ++ after))
  refine ⟨houtside, ?_⟩
  have hall := hbefore'.trans (hselect'.trans hrename)
  rw [List.flatMap_append, List.flatMap_cons, hmark, hx']
  simpa only [List.append_assoc, List.cons_append] using hall

end Passes

/-- A selecting mark begins with a point or a colon. -/
theorem Kind.text?_of_isSelector {k : Kind} (h : k.isSelector = true) :
    ∃ mark d tail, k.text? = some mark ∧ mark.toList = d :: tail ∧ (d = '.' ∨ d = ':') := by
  cases k
  case dot => exact ⟨".", '.', [], rfl, rfl, .inl rfl⟩
  case dotDot => exact ⟨"..", '.', ['.'], rfl, rfl, .inl rfl⟩
  case colonColon => exact ⟨"::", ':', [':'], rfl, rfl, .inr rfl⟩
  all_goals cases h

theorem written_of_isSelector [Alphabet] {source : String} {xmlLiterals : Bool} {t : Token}
    (ht : t ∈ (tokenize source xmlLiterals).tokens.toList) (h : t.kind.isSelector = true) :
    ∃ d tail, t.written.2 = d :: tail ∧ (d = '.' ∨ d = ':') := by
  obtain ⟨mark, d, tail, hmark, htail, hd⟩ := Kind.text?_of_isSelector h
  obtain ⟨i, hi⟩ := Array.mem_iff_getElem?.mp (Array.mem_toList_iff.mp ht)
  refine ⟨d, tail, ?_, hd⟩
  rw [← htail, ← (tokenize_wellMade hi).2.2.2 mark hmark]
  rfl

/-- When a keyword after a selecting mark is replaced by a name, the tokens before it stay as they
are, and those after it do exactly if the first significant one of them is no regular expression and
no XML text. -/
theorem tokenize_renamed [Alphabet] [Alphabet.Spaced] {source renamed name : String}
    {xmlLiterals : Bool}
    {before hidden after : List Token} {selector keyword : Token}
    (htokens : (tokenize source xmlLiterals).tokens.toList =
      before ++ (selector :: hidden ++ keyword :: after))
    (hselector : selector.kind.isSelector = true) (hhidden : ∀ t ∈ hidden, t.isHidden = true)
    (hkeyword : keyword.kind.isKeyword = true) (hname : IsFreeName name)
    (hrenamed : renamed = String.join
      ((before ++ selector :: hidden).map Token.text ++ name :: after.map Token.text)) :
    ∃ later, (tokenize renamed xmlLiterals).tokens.toList.map Token.written =
        (before ++ selector :: hidden).map Token.written ++ (.identifier, name.toList) :: later ∧
      (later = after.map Token.written ↔
        ∀ t, after.find? (!·.isHidden) = some t → t.kind.isRegExpOrXml = false) := by
  obtain ⟨modes, operand, hread⟩ := tokenize_passes source xmlLiterals
  have hsplit : (tokenize source xmlLiterals).tokens.toList.map Token.written =
      before.map Token.written ++ (selector.written :: hidden.map Token.written ++
        [keyword.written]) ++ after.map Token.written := by
    rw [htokens]
    simp
  rw [hsplit] at hread
  obtain ⟨⟨text, modes', operand'⟩, hkept, hafter⟩ := hread.split
  have hmem : selector ∈ (tokenize source xmlLiterals).tokens.toList := by
    rw [htokens]
    simp
  obtain ⟨d, tail, hselected, hd⟩ := written_of_isSelector hmem hselector
  have hgap : ∀ u ∈ selector.written :: hidden.map Token.written, u.1.isGap = true := by
    simp only [List.forall_mem_cons, List.forall_mem_map]
    refine ⟨by simp [Token.written, Kind.isGap, hselector], fun t ht => ?_⟩
    rw [Kind.isGap, Bool.or_eq_true]
    exact .inl (hhidden t ht)
  obtain ⟨houtside, hname⟩ := hkept.rename_selected hname hd hselected hgap hkeyword
  have htext : renamed.toList = (before.map Token.written ++ selector.written ::
      hidden.map Token.written).flatMap Prod.snd ++ (name.toList ++ text) := by
    have hrest : text = (after.map Token.written).flatMap Prod.snd := by
      simpa using hafter.rest_eq
    rw [hrest]
    simp [hrenamed, Token.written, List.flatMap_map]
  obtain ⟨modes'', operand'', hwhole⟩ := tokenize_passes renamed xmlLiterals
  rw [htext] at hwhole
  obtain ⟨later, hlater, hlast⟩ := hname.resume hwhole rfl
  have hfind : (after.map Token.written).find? (!·.1.isHidden) =
      (after.find? (!·.isHidden)).map Token.written := List.find?_map
  refine ⟨later, ?_, ?_, ?_⟩
  · rw [hlater]
    simp
  · rintro rfl t ht
    exact hlast.first_after_operand houtside t.written (by rw [hfind, ht]; rfl)
  · intro hfirst
    obtain ⟨s, hsame, hend⟩ := hafter.after_operand houtside fun u hu => by
      rw [hfind] at hu
      obtain ⟨t, ht, rfl⟩ := Option.map_eq_some_iff.mp hu
      exact hfirst t ht
    exact hsame.unique hlast hend rfl

theorem isFreeName_x : IsFreeName "x" := ⟨⟨'x', [], rfl, by decide⟩, by decide, by decide⟩

/-- A sum of a property goes on as it does when the property has another name. -/
theorem tokenize_renamed_sum : IsFreeName "x" ∧
    (tokenize "a. if+b" true).tokens.toList.map Token.written =
      [(.identifier, ['a']), (.dot, ['.']), (.whiteSpace, [' ']), (.ifKeyword, ['i', 'f']),
        (.plus, ['+']), (.identifier, ['b'])] ∧
    ∃ later, (tokenize "a. x+b" true).tokens.toList.map Token.written =
        [(.identifier, ['a']), (.dot, ['.']), (.whiteSpace, [' ']), (.identifier, ['x'])] ++ later ∧
      later = [(.plus, ['+']), (.identifier, ['b'])] := by
  have htokens : (tokenize "a. if+b" true).tokens.toList =
      [⟨.identifier, "a", 1, 0, 0, false, false⟩] ++
        ([⟨.dot, ".", 1, 1, 1, false, false⟩, ⟨.whiteSpace, " ", 1, 2, 2, false, false⟩] ++
          ⟨.ifKeyword, "if", 1, 3, 3, false, false⟩ :: [⟨.plus, "+", 1, 5, 4, false, false⟩,
            ⟨.identifier, "b", 1, 6, 5, false, false⟩]) := by rfl
  obtain ⟨later, hlater, hkept⟩ := tokenize_renamed htokens rfl (by decide) rfl isFreeName_x
    (show "a. x+b" = _ by decide)
  exact ⟨isFreeName_x, by rw [htokens]; rfl, later, hlater, hkept.mpr (by rintro _ ⟨⟩; rfl)⟩

/-- After a property called `if` a slash begins a regular expression, after one called `x` it
divides. -/
theorem regularExpression_after_name : IsFreeName "x" ∧
    (tokenize "a.if /b/ c" true).tokens.toList.map Token.written =
      [(.identifier, ['a']), (.dot, ['.']), (.ifKeyword, ['i', 'f']), (.whiteSpace, [' ']),
        (.regularExpressionLiteral, ['/', 'b', '/']), (.whiteSpace, [' ']), (.identifier, ['c'])] ∧
    (tokenize "a.x /b/ c" true).tokens.toList.map Token.written =
      [(.identifier, ['a']), (.dot, ['.']), (.identifier, ['x']), (.whiteSpace, [' ']),
        (.slash, ['/']), (.identifier, ['b']), (.slash, ['/']), (.whiteSpace, [' ']),
        (.identifier, ['c'])] :=
  ⟨isFreeName_x, by decide +kernel, by decide +kernel⟩

end ScriptTree
