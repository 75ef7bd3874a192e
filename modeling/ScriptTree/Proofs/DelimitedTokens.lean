import ScriptTree.Proofs.TokenLexemes

/-!
The tokens that have delimiters: comments, strings and regular expressions. Each is as its lexical
grammar says, and it is taken for unterminated exactly if the text at its place does not begin with
a complete one.
-/
namespace ScriptTree
open CharClass

/-- Nothing is left of the line before `after`. -/
def EndsLine (after : List Char) : Prop := ∀ c, after.head? = some c → isLineBreak c = true

/-- The inside of a string. A backslash takes in any character after it, and a line end of two. -/
inductive StringText (quote : Char) : List Char → Prop where
  | nil : StringText quote []
  | plain : c ≠ quote → c ≠ '\\' → isLineBreak c = false → StringText quote text →
      StringText quote (c :: text)
  | lineEnd : StringText quote text → StringText quote ('\\' :: '\r' :: '\n' :: text)
  | escape : StringText quote text → StringText quote ('\\' :: c :: text)

/-- How a string ends before `after`, and whether its quote is missing there. -/
inductive StringEnd (quote : Char) : Bool → List Char → List Char → Prop where
  | closed : StringEnd quote false [quote] after
  | unclosed : EndsLine after → StringEnd quote true [] after
  | backslash : StringEnd quote true ['\\'] []

/-- The inside of a regular expression. The truth values tell whether a character class is open at
its beginning and at its end; in a class a slash is a character like others. -/
inductive RegExpText : Bool → List Char → Bool → Prop where
  | nil : RegExpText inClass [] inClass
  | escape : isLineBreak c = false → RegExpText inClass text inClass' →
      RegExpText inClass ('\\' :: c :: text) inClass'
  | openClass : RegExpText true text inClass' → RegExpText inClass ('[' :: text) inClass'
  | closeClass : RegExpText false text inClass' → RegExpText inClass (']' :: text) inClass'
  | plain : c ≠ '\\' → c ≠ '[' → c ≠ ']' → isLineBreak c = false → (c = '/' → inClass = true) →
      RegExpText inClass text inClass' → RegExpText inClass (c :: text) inClass'

/-- How a regular expression ends before `after`, and whether its slash is missing there. Only
outside classes a slash closes it. All identifier characters after that slash are its flags. -/
inductive RegExpEnd [Alphabet] : Bool → Bool → List Char → List Char → Prop where
  | closed : (∀ c ∈ flags, isIdentifierPart c = true) →
      (∀ c, after.head? = some c → isIdentifierPart c = false) →
      RegExpEnd false false ('/' :: flags) after
  | unclosed : EndsLine after → RegExpEnd inClass true [] after
  | backslash : EndsLine after → RegExpEnd inClass true ['\\'] after

/-- The lexical grammar: a token of a kind reads `part` before `after`. The truth value tells
whether its closing delimiter is missing. -/
inductive Delimited [Alphabet] : Kind → Bool → List Char → List Char → Prop where
  | lineComment : (∀ c ∈ body, isLineBreak c = false) → EndsLine after →
      Delimited .singleLineComment false ('/' :: '/' :: body) after
  | comment : (∀ before post, body ++ ['*', '/'] = before ++ '*' :: '/' :: post → post = []) →
      Delimited .multiLineComment false ('/' :: '*' :: (body ++ ['*', '/'])) after
  | openComment : ¬['*', '/'] <:+: body →
      Delimited .multiLineComment true ('/' :: '*' :: body) []
  | string : quote = '"' ∨ quote = '\'' → StringText quote body →
      StringEnd quote isOpen stop after →
      Delimited .stringLiteral isOpen (quote :: (body ++ stop)) after
  | regExp : RegExpText false body inClass → RegExpEnd inClass isOpen stop after →
      (∀ c, (body ++ stop).head? = some c → c ≠ '/' ∧ c ≠ '*') →
      Delimited .regularExpressionLiteral isOpen ('/' :: (body ++ stop)) after

theorem endsLine_nil : EndsLine [] := nofun

theorem endsLine_cons {c : Char} {rest : List Char} (h : isLineBreak c = true) :
    EndsLine (c :: rest) := by
  intro d hd
  exact Option.some.inj hd ▸ h

/-- A run of characters ends before the first that is not of the class. -/
theorem runLength_split (p : Char → Bool) (text : List Char) : ∃ body after,
    text = body ++ after ∧ runLength p text = body.length ∧ (∀ c ∈ body, p c = true) ∧
      ∀ c, after.head? = some c → p c = false := by
  refine ⟨text.takeWhile p, text.dropWhile p, List.takeWhile_append_dropWhile.symm, rfl,
    fun c => List.mem_takeWhile_imp, fun c hc => ?_⟩
  have hnot := List.head?_dropWhile_not p text
  rw [hc] at hnot
  exact hnot

/-- A mark that is found is found where it first ends. -/
theorem lengthThrough?_eq_some {mark text : List Char} {n : Nat}
    (h : lengthThrough? mark text = some n) : ∃ body after, text = body ++ mark ++ after ∧
      n = body.length + mark.length ∧
      ∀ before post, body ++ mark = before ++ mark ++ post → post = [] := by
  induction text generalizing n with
  | nil => cases h
  | cons c rest ih =>
    rw [lengthThrough?] at h
    split at h
    · rename_i hhere
      obtain ⟨after, hafter⟩ := List.isPrefixOf_iff_prefix.mp hhere
      refine ⟨[], after, hafter.symm, by simpa using h.symm, fun before post heq => ?_⟩
      have hlength := congrArg List.length heq
      simp only [List.nil_append, List.length_append] at hlength
      exact List.length_eq_zero_iff.mp (by omega)
    · rename_i hhere
      obtain ⟨m, hm, rfl⟩ := Option.map_eq_some_iff.mp h
      obtain ⟨body, after, rfl, rfl, hfirst⟩ := ih hm
      refine ⟨c :: body, after, rfl, by simp; omega, fun before post heq => ?_⟩
      cases before with
      | nil =>
        have hprefix : mark <+: c :: (body ++ mark ++ after) :=
          ⟨post ++ after, by simpa using congrArg (· ++ after) heq.symm⟩
        exact absurd (List.isPrefixOf_iff_prefix.mpr hprefix) hhere
      | cons d before => exact hfirst before post (List.cons.inj heq).2

theorem lengthThrough?_eq_none {mark text : List Char} (hmark : mark ≠ []) :
    lengthThrough? mark text = none ↔ ¬mark <:+: text := by
  induction text with
  | nil => simpa [lengthThrough?] using hmark
  | cons c rest ih =>
    rw [lengthThrough?, List.infix_cons_iff, ← List.isPrefixOf_iff_prefix]
    split
    · rename_i hhere
      simp [hhere]
    · rename_i hhere
      simp [hhere, ih]

/-- A line feed inside a string follows a backslash and perhaps a carriage return. -/
theorem StringText.head?_ne {quote : Char} {body : List Char} (h : StringText quote body) :
    body.head? ≠ some '\n' := by
  intro hhead
  cases h with
  | nil => cases hhead
  | plain _ _ hbreak =>
    cases hhead
    cases hbreak
  | lineEnd | escape => cases hhead

namespace Lexeme

@[simp] theorem length_after (e : Extent) (n : Nat) : (e.after n).length = e.length + n := rfl

@[simp] theorem closed_after (e : Extent) (n : Nat) : (e.after n).closed = e.closed := rfl

/-! Strings. -/

/-- Where `stringExtent` ends there is the end of a string. -/
theorem stringExtent_sound (quote : Char) (text : List Char) : ∃ body stop after isOpen,
    text = body ++ (stop ++ after) ∧ StringText quote body ∧
      StringEnd quote isOpen stop after ∧
      stringExtent quote text = ⟨body.length + stop.length, !isOpen⟩ := by
  fun_induction stringExtent quote text with
  | case1 => exact ⟨[], [], [], true, rfl, .nil, .unclosed endsLine_nil, rfl⟩
  | case2 rest ih =>
    obtain ⟨body, stop, after, isOpen, rfl, hbody, hstop, hextent⟩ := ih
    refine ⟨_ :: _ :: _ :: body, stop, after, isOpen, rfl, .lineEnd hbody, hstop, ?_⟩
    simp [hextent, Extent.after]
    omega
  | case3 d rest _ ih =>
    obtain ⟨body, stop, after, isOpen, rfl, hbody, hstop, hextent⟩ := ih
    refine ⟨_ :: _ :: body, stop, after, isOpen, rfl, .escape hbody, hstop, ?_⟩
    simp [hextent, Extent.after]
    omega
  | case4 c rest _ _ hquote =>
    obtain rfl : c = quote := by simpa using hquote
    exact ⟨[], [c], rest, false, rfl, .nil, .closed, rfl⟩
  | case5 c rest _ _ _ hbreak =>
    exact ⟨[], [], c :: rest, true, rfl, .nil, .unclosed (endsLine_cons hbreak), rfl⟩
  | case6 c rest _ hescape hquote hbreak ih =>
    by_cases hbackslash : c = '\\'
    · subst hbackslash
      cases rest with
      | nil => exact ⟨[], ['\\'], [], true, rfl, .nil, .backslash, rfl⟩
      | cons d rest => exact absurd rfl (hescape d rest rfl)
    · obtain ⟨body, stop, after, isOpen, rfl, hbody, hstop, hextent⟩ := ih
      refine ⟨c :: body, stop, after, isOpen, rfl, ?_, hstop, ?_⟩
      · exact .plain (by simpa using hquote) hbackslash (by simpa using hbreak) hbody
      · simp [hextent, Extent.after]
        omega

/-- A string that can end where its quote is ends there. -/
theorem stringExtent_complete {quote : Char} (hquote : quote = '"' ∨ quote = '\'')
    {body : List Char} (after : List Char) (h : StringText quote body) :
    stringExtent quote (body ++ quote :: after) = ⟨body.length + 1, true⟩ := by
  induction h with
  | nil => rcases hquote with rfl | rfl <;> simp [stringExtent]
  | @plain c body hne hbackslash hbreak _ ih =>
    simp [stringExtent, hne, hbackslash, hbreak, ih, Extent.after]
  | lineEnd _ ih =>
    simp [stringExtent, ih, Extent.after]
  | @escape body c hbody ih =>
    have hnext : ∀ rest, c = '\r' → body ++ quote :: after = '\n' :: rest → False := by
      intro rest _ heq
      have hhead := congrArg List.head? heq
      cases body with
      | nil => rcases hquote with rfl | rfl <;> cases hhead
      | cons d body => exact hbody.head?_ne hhead
    rw [List.cons_append, List.cons_append, stringExtent.eq_3 _ _ _ hnext, ih]
    rfl

/-! Regular expressions. -/

theorem regExpExtent_escape [Alphabet] {c : Char} (inClass : Bool) (rest : List Char)
    (hbreak : isLineBreak c = false) :
    regExpExtent inClass ('\\' :: c :: rest) = (regExpExtent inClass rest).after 2 := by
  have hbackslash : isLineBreak '\\' = false := rfl
  rw [regExpExtent]
  simp [hbackslash, hbreak]

/-- A character that neither escapes nor closes may open a class or close one. -/
theorem regExpExtent_cons [Alphabet] (c : Char) {inClass : Bool} (rest : List Char)
    (hbackslash : c ≠ '\\') (hbreak : isLineBreak c = false)
    (hslash : c = '/' → inClass = true) :
    regExpExtent inClass (c :: rest) = (regExpExtent
      (if c == '[' then true else if c == ']' then false else inClass) rest).after 1 := by
  have hopen : (c == '/' && !inClass) = false := by
    by_cases hc : c = '/'
    · simp [hslash hc]
    · simp [hc]
  conv_lhs => unfold regExpExtent
  simp only [hbreak, hopen, beq_iff_eq, hbackslash, if_false, Bool.false_eq_true]

theorem regExpExtent_sound [Alphabet] (inClass : Bool) (text : List Char) :
    ∃ body stop after inClass' isOpen, text = body ++ (stop ++ after) ∧
      RegExpText inClass body inClass' ∧ RegExpEnd inClass' isOpen stop after ∧
      regExpExtent inClass text = ⟨body.length + stop.length, !isOpen⟩ := by
  fun_induction regExpExtent inClass text with
  | case1 inClass => exact ⟨[], [], [], inClass, true, rfl, .nil, .unclosed endsLine_nil, rfl⟩
  | case2 inClass c rest hbreak =>
    exact ⟨[], [], c :: rest, inClass, true, rfl, .nil, .unclosed (endsLine_cons hbreak), rfl⟩
  | case3 inClass c _ hbackslash =>
    obtain rfl : c = '\\' := by simpa using hbackslash
    exact ⟨[], ['\\'], [], inClass, true, rfl, .nil, .backslash endsLine_nil, rfl⟩
  | case4 inClass c _ hbackslash d rest hbreak =>
    obtain rfl : c = '\\' := by simpa using hbackslash
    exact ⟨[], ['\\'], d :: rest, inClass, true, rfl, .nil, .backslash (endsLine_cons hbreak), rfl⟩
  | case5 inClass c _ hbackslash d rest hbreak ih =>
    obtain rfl : c = '\\' := by simpa using hbackslash
    obtain ⟨body, stop, after, inClass', isOpen, rfl, hbody, hstop, hextent⟩ := ih
    refine ⟨_ :: d :: body, stop, after, inClass', isOpen, rfl, ?_, hstop, ?_⟩
    · exact .escape (by simpa using hbreak) hbody
    · simp [hextent, Extent.after]
      omega
  | case6 inClass c rest _ _ hslash =>
    obtain ⟨rfl, rfl⟩ : c = '/' ∧ inClass = false := by simpa using hslash
    obtain ⟨flags, after, rfl, hlength, hflags, hafter⟩ := runLength_split isIdentifierPart rest
    refine ⟨[], '/' :: flags, after, false, false, rfl, .nil, .closed hflags hafter, ?_⟩
    simp [hlength]
    omega
  | case7 inClass c rest hbreak hbackslash hslash ih =>
    obtain ⟨body, stop, after, inClass', isOpen, rfl, hbody, hstop, hextent⟩ := ih
    refine ⟨c :: body, stop, after, inClass', isOpen, rfl, ?_, hstop, ?_⟩
    · by_cases hopens : c = '['
      · subst hopens
        exact .openClass hbody
      by_cases hcloses : c = ']'
      · subst hcloses
        exact .closeClass hbody
      · simp only [beq_iff_eq, hopens, hcloses, if_false] at hbody
        refine .plain (by simpa using hbackslash) hopens hcloses (by simpa using hbreak) ?_ hbody
        intro hc
        simpa [hc] using hslash
    · rw [hextent, Extent.after, List.length_cons, Nat.add_right_comm]

/-- The inside of a regular expression is passed over. -/
theorem regExpExtent_complete [Alphabet] {inClass inClass' : Bool} {body : List Char}
    (tail : List Char) (h : RegExpText inClass body inClass') :
    regExpExtent inClass (body ++ tail) = (regExpExtent inClass' tail).after body.length := by
  induction h with
  | nil => rfl
  | escape hbreak _ ih =>
    rw [List.cons_append, List.cons_append, regExpExtent_escape _ _ hbreak, ih]
    rfl
  | openClass _ ih =>
    rw [List.cons_append, regExpExtent_cons '[' _ (by decide) rfl (by simp)]
    exact congrArg (Extent.after · 1) ih
  | closeClass _ ih =>
    rw [List.cons_append, regExpExtent_cons ']' _ (by decide) rfl (by simp)]
    exact congrArg (Extent.after · 1) ih
  | plain hbackslash hopens hcloses hbreak hslash _ ih =>
    rw [List.cons_append, regExpExtent_cons _ _ hbackslash hbreak hslash]
    simp only [beq_iff_eq, hopens, hcloses, if_false]
    exact congrArg (Extent.after · 1) ih

theorem regExpExtent_slash [Alphabet] (rest : List Char) :
    (regExpExtent false ('/' :: rest)).closed = true := by
  unfold regExpExtent
  rfl

/-! Lexemes. -/

/-- At the beginning of `text` lexeme `l` is as the lexical grammar says, and there is no complete
one if its closing delimiter is missing. -/
structure Delimits [Alphabet] (l : Lexeme) (text : List Char) : Prop where
  reads : ∃ part after, text = part ++ after ∧ l.size = part.length ∧
    Delimited l.kind l.isUnterminated part after
  closed : ∀ part after, text = part ++ after → Delimited l.kind false part after →
    l.isUnterminated = false

variable {c : Char} {rest : List Char} {l : Lexeme}

theorem delimited_isUnterminated {fault : LexicalFault} (kind : Kind) (e : Extent)
    (h : fault.isUnterminated = true) :
    (delimited kind fault e).isUnterminated = !e.closed := by
  cases hclosed : e.closed <;>
    simp [delimited, Reading.delimited, Reading.isUnterminated, hclosed, h]

theorem string_delimits [Alphabet] (hquote : c = '"' ∨ c = '\'') (rest : List Char) :
    (string c rest).Delimits (c :: rest) := by
  have hopen : (string c rest).isUnterminated = !(stringExtent c rest).closed :=
    delimited_isUnterminated _ _ rfl
  constructor
  · obtain ⟨body, stop, after, isOpen, hrest, hbody, hstop, hextent⟩ := stringExtent_sound c rest
    refine ⟨c :: (body ++ stop), after, by simp [hrest], ?_, ?_⟩
    · simp [string, delimited, hextent]
    · rw [hopen, hextent, Bool.not_not]
      exact .string hquote hbody hstop
  · intro part after htext h
    have h : Delimited .stringLiteral false part after := h
    cases h with
    | @string quote body _ stop _ _ hbody hstop =>
      cases hstop
      obtain ⟨rfl, hrest⟩ := List.cons.inj htext
      have hrest : rest = body ++ c :: after := by simpa using hrest
      rw [hopen, hrest, stringExtent_complete hquote after hbody]
      rfl

theorem lineComment_delimits [Alphabet] (rest : List Char) :
    Delimits { kind := .singleLineComment, size := lineCommentLength rest + 2 }
      ('/' :: '/' :: rest) := by
  constructor
  · obtain ⟨body, after, rfl, hlength, hbody, hafter⟩ :=
      runLength_split (fun c => !isLineBreak c) rest
    refine ⟨'/' :: '/' :: body, after, rfl, ?_, ?_⟩
    · simp [lineCommentLength, hlength]
    · exact .lineComment (by simpa using hbody) (fun c hc => by simpa using hafter c hc)
  · intro part after _ _
    rfl

theorem blockComment_delimits [Alphabet] (rest : List Char) :
    Delimits (delimited .multiLineComment .unterminatedComment ((blockCommentExtent rest).after 1))
      ('/' :: '*' :: rest) := by
  have hopen : (delimited .multiLineComment .unterminatedComment
      ((blockCommentExtent rest).after 1)).isUnterminated = !(blockCommentExtent rest).closed :=
    delimited_isUnterminated _ _ rfl
  cases hlength : lengthThrough? ['*', '/'] rest with
  | some n =>
    have hextent : blockCommentExtent rest = ⟨n, true⟩ := by simp [blockCommentExtent, hlength]
    rw [hextent] at hopen ⊢
    constructor
    · obtain ⟨body, after, rfl, rfl, hfirst⟩ := lengthThrough?_eq_some hlength
      refine ⟨'/' :: '*' :: (body ++ ['*', '/']), after, rfl, by simp [delimited], ?_⟩
      rw [hopen]
      exact .comment fun before post heq => hfirst before post (by simpa using heq)
    · intro part after _ _
      exact hopen
  | none =>
    have hextent : blockCommentExtent rest = ⟨rest.length, false⟩ := by
      simp [blockCommentExtent, hlength]
    have hnone : ¬['*', '/'] <:+: rest := (lengthThrough?_eq_none (by simp)).mp hlength
    rw [hextent] at hopen ⊢
    constructor
    · refine ⟨'/' :: '*' :: rest, [], by simp, by simp [delimited], ?_⟩
      rw [hopen]
      exact .openComment hnone
    · intro part after htext h
      have h : Delimited .multiLineComment false part after := h
      cases h with
      | @comment body _ hfirst =>
        have hrest : rest = body ++ ['*', '/'] ++ after := by simpa using htext
        exact absurd ⟨body, after, hrest.symm⟩ hnone

theorem comment?_delimits [Alphabet] (h : comment? rest = some l) : l.Delimits ('/' :: rest) := by
  unfold comment? at h
  split at h
  · cases h
    exact lineComment_delimits _
  · cases h
    exact blockComment_delimits _
  · cases h

theorem ne_of_comment?_eq_none (h : comment? (c :: rest) = none) : c ≠ '/' ∧ c ≠ '*' := by
  constructor
  · rintro rfl
    cases h
  · rintro rfl
    cases h

theorem regExp_delimits [Alphabet] (h : comment? rest = none) :
    (regExp rest).Delimits ('/' :: rest) := by
  have hopen : (regExp rest).isUnterminated = !(regExpExtent false rest).closed :=
    delimited_isUnterminated _ _ rfl
  constructor
  · obtain ⟨body, stop, after, inClass, isOpen, hrest, hbody, hstop, hextent⟩ :=
      regExpExtent_sound false rest
    refine ⟨'/' :: (body ++ stop), after, by simp [hrest], ?_, ?_⟩
    · simp [regExp, delimited, hextent]
    · rw [hopen, hextent, Bool.not_not]
      refine .regExp hbody hstop fun c hc => ?_
      obtain ⟨tail, htail⟩ := List.head?_eq_some_iff.mp hc
      rw [hrest, ← List.append_assoc, htail] at h
      exact ne_of_comment?_eq_none h
  · intro part after htext h
    have h : Delimited .regularExpressionLiteral false part after := h
    cases h with
    | @regExp body inClass _ stop _ hbody hstop =>
      cases hstop with
      | @closed flags _ hflags hafter =>
        have hrest : rest = body ++ '/' :: (flags ++ after) := by simpa using htext
        rw [hopen, hrest, regExpExtent_complete _ hbody, closed_after, regExpExtent_slash]
        rfl

/-- Every lexeme of a kind that has delimiters. -/
theorem next_delimits [Alphabet] {xmlLiterals afterOperand : Bool} {modes : List Mode}
    (h : (next xmlLiterals afterOperand modes c rest).1.kind.isDelimited = true) :
    (next xmlLiterals afterOperand modes c rest).1.Delimits (c :: rest) := by
  rcases next_cases xmlLiterals afterOperand modes c rest with hreads | ⟨state, outer, -, htext⟩
  · generalize (next xmlLiterals afterOperand modes c rest).1 = l at h hreads
    rcases hreads.sound_or_delimited with hsound | rfl | ⟨hc, rfl⟩ | ⟨rfl, hl | ⟨hnone, rfl⟩⟩
    · have hkind := hsound.2
      simp [Kind.isFaultless, h] at hkind
    · cases h
    · exact string_delimits hc rest
    · exact comment?_delimits hl
    · exact regExp_delimits hnone
  · rw [htext] at h
    rcases xmlText_kind state outer c rest with hk | hk <;> rw [hk] at h <;> cases h

end Lexeme

/-- The tokens of a text that have delimiters are as the lexical grammar says, and one is flagged as
unterminated exactly if the text at its place does not begin with a complete token of the kind. -/
theorem tokenize_delimited [Alphabet] {text : String} {xmlLiterals : Bool} {i : Nat} {t : Token}
    (h : (tokenize text xmlLiterals).tokens[i]? = some t) (hkind : t.kind.isDelimited = true) :
    ∃ before after, text.toList = before ++ (t.text.toList ++ after) ∧
      (String.ofList before).utf8ByteSize =
        (Offsets.ofTokens (tokenize text xmlLiterals).tokens).get i ∧
      Delimited t.kind t.unterminated t.text.toList after ∧
      (t.unterminated = true ↔ ¬∃ part after', t.text.toList ++ after = part ++ after' ∧
        Delimited t.kind false part after') := by
  obtain ⟨afterOperand, modes, c, rest, htext, hmade⟩ := tokenize_madeOf h
  have hdelimits := Lexeme.next_delimits (hmade.kind_eq ▸ hkind)
  obtain ⟨⟨part, after, hsplit, hsize, hpart⟩, hclosed⟩ := hdelimits
  have hpart_eq : part = t.text.toList := by
    rw [hmade.text_eq, hsplit, hsize, List.take_left]
  rw [← hmade.kind_eq, ← hmade.unterminated_eq] at hpart hclosed
  subst hpart_eq
  refine ⟨_, after, hsplit ▸ htext.symm, ?_, hpart, ?_⟩
  · rw [Offsets.get_ofTokens, totalLength_eq]
  rw [← hsplit]
  constructor
  · rintro hopen ⟨part, after, heq, hcomplete⟩
    simp [hclosed part after heq hcomplete] at hopen
  · intro hnone
    by_contra hopen
    rw [Bool.not_eq_true] at hopen
    exact hnone ⟨_, after, hsplit, hopen ▸ hpart⟩

/-- A slash inside a class does not close a regular expression. -/
theorem tokenize_delimited_class : ∃ t : Token, (tokenize "/[/" true).tokens[0]? = some t ∧
    t.text = "/[/" ∧ ∃ after, Delimited .regularExpressionLiteral true "/[/".toList after ∧
      ¬∃ part after', "/[/".toList ++ after = part ++ after' ∧
        Delimited .regularExpressionLiteral false part after' := by
  have htoken : (tokenize "/[/" true).tokens[0]? =
      some ⟨.regularExpressionLiteral, "/[/", 1, 0, 0, false, true⟩ := by rfl
  obtain ⟨_, after, -, -, hpart, hopen⟩ := tokenize_delimited htoken rfl
  exact ⟨_, htoken, rfl, after, hpart, hopen.mp rfl⟩

end ScriptTree
