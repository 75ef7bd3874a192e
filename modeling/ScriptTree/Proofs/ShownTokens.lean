import ScriptTree.Proofs.ReportPlaces
import ScriptTree.Proofs.TemplateFilling

/-!
Diagnostics that show a token. The text of the token is the first argument of their messages, so
that what is filled in after it is filled into that text too. The token is shown as it is written
where its text has no place for the second argument.
-/
namespace ScriptTree

/-! Texts on both sides of a character that the pattern does not have. -/

section
variable {pattern value a b : List Char} {d : Char}

theorem prefix_append_cons_iff (h : d ∉ pattern) : pattern <+: a ++ d :: b ↔ pattern <+: a := by
  refine ⟨fun hbegins => ?_, fun hbegins => hbegins.trans (List.prefix_append _ _)⟩
  rcases List.prefix_or_prefix_of_prefix hbegins (List.prefix_append a (d :: b)) with hin | ⟨c, hc⟩
  · exact hin
  · cases c with
    | nil => exact ⟨[], by simpa using hc.symm⟩
    | cons x c =>
      rw [← hc, List.prefix_append_right_inj, List.cons_prefix_cons] at hbegins
      exact absurd (hc ▸ List.mem_append_right a (hbegins.1 ▸ .head _)) h

theorem occurrences_append_cons (h : d ∉ pattern) (hne : pattern ≠ []) :
    occurrences pattern (a ++ d :: b) = occurrences pattern a + occurrences pattern b := by
  induction a with
  | nil =>
    have hbegins : ¬pattern <+: [] ++ d :: b := by
      rw [prefix_append_cons_iff h, List.prefix_nil]
      exact hne
    rw [List.nil_append, ← List.isPrefixOf_iff_prefix] at hbegins
    rw [List.nil_append, occurrences.eq_2, if_neg hbegins, occurrences.eq_1]
  | cons c a ih =>
    have hbegins : pattern <+: c :: (a ++ d :: b) ↔ pattern <+: c :: a :=
      prefix_append_cons_iff (a := c :: a) h
    rw [List.cons_append, occurrences, occurrences, ih, Nat.add_assoc]
    simp only [List.isPrefixOf_iff_prefix, hbegins]

theorem replaceFrom_append_cons (h : d ∉ pattern) (hne : pattern ≠ []) {skip : Nat}
    (hskip : skip ≤ a.length) :
    replaceFrom pattern value skip (a ++ d :: b) =
      replaceFrom pattern value skip a ++ d :: replaceAll pattern value b := by
  induction a generalizing skip with
  | nil =>
    obtain rfl : skip = 0 := Nat.le_zero.mp hskip
    have hbegins : ¬pattern <+: [] ++ d :: b := by
      rw [prefix_append_cons_iff h, List.prefix_nil]
      exact hne
    exact replaceAll_cons hbegins
  | cons c a ih =>
    cases skip with
    | succ skip => exact ih (Nat.le_of_succ_le_succ hskip)
    | zero =>
      have hbegins : pattern <+: c :: (a ++ d :: b) ↔ pattern <+: c :: a :=
        prefix_append_cons_iff (a := c :: a) h
      rw [List.cons_append, replaceFrom, replaceFrom]
      simp only [List.isPrefixOf_iff_prefix, hbegins]
      split
      · rename_i hhere
        have hlength := hhere.length_le
        rw [List.length_cons] at hlength
        rw [ih (by omega), List.append_assoc]
      · rw [ih (Nat.zero_le _), List.cons_append]

theorem replaceAll_append_cons (h : d ∉ pattern) (hne : pattern ≠ []) :
    replaceAll pattern value (a ++ d :: b) =
      replaceAll pattern value a ++ d :: replaceAll pattern value b :=
  replaceFrom_append_cons h hne (Nat.zero_le _)

theorem replaceAll_eq_self (h : occurrences pattern a = 0) : replaceAll pattern value a = a := by
  have hkept : replaceAll pattern value (a ++ []) = a ++ replaceAll pattern value [] :=
    replaceAll_append (by rw [List.append_nil, h, occurrences])
  rw [List.append_nil] at hkept
  exact hkept.trans (List.append_nil a)

end

namespace Message

section
variable {i j : Nat} {a : List Char}

theorem replaceAll_hole_append (i : Nat) (value b : List Char) :
    replaceAll (hole i) value (hole i ++ b) = value ++ replaceAll (hole i) value b := by
  obtain ⟨tail, hhole, -⟩ := exists_hole_eq i
  rw [hhole, replaceAll_pattern_append]

theorem replaceAll_other_hole (h : i ≠ j) (value b : List Char) :
    replaceAll (hole i) value (hole j ++ b) = hole j ++ replaceAll (hole i) value b := by
  apply replaceAll_append
  rw [occurrences_hole_append, if_neg h, Nat.zero_add]

/-- A text without braces is kept. -/
theorem replaceAll_hole_of_notMem (h : '{' ∉ a) (i : Nat) (value b : List Char) :
    replaceAll (hole i) value (a ++ b) = a ++ replaceAll (hole i) value b := by
  obtain ⟨tail, hhole, -⟩ := exists_hole_eq i
  apply replaceAll_append
  rw [hhole]
  exact occurrences_append_of_notMem h

theorem hole_ne_nil (i : Nat) : hole i ≠ [] := by
  obtain ⟨tail, hhole, -⟩ := exists_hole_eq i
  rw [hhole]
  exact List.cons_ne_nil _ _

end

/-! The messages. -/

/-- What becomes of a text that is in a message when the argument after it is filled in. -/
def refilled (found next : String) : String := String.ofList (fillFrom 1 [next] found.toList)

theorem refilled_eq_self {found : String} (h : occurrences (hole 1) found.toList = 0)
    (next : String) : refilled found next = found := by
  have hkept : fillFrom 1 [next] found.toList = found.toList := replaceAll_eq_self h
  rw [refilled, hkept, String.ofList_toList]

/-- Filling in the second argument goes over the first again, and over nothing else that the
template does not have. -/
theorem fillTemplate_pair {template before between after : String} {d : Char} {rest : List Char}
    (htemplate : template.toList =
      before.toList ++ (hole 0 ++ (between.toList ++ (hole 1 ++ after.toList))))
    (hbefore : '{' ∉ before.toList) (hbetween : between.toList = d :: rest) (hd : d ∉ hole 1)
    (hrest : '{' ∉ rest) (hafter : '{' ∉ after.toList) (found next : String) :
    fillTemplate template [found, next] =
      before ++ (refilled found next ++ (between ++ (next ++ after))) := by
  have hnone : '{' ∉ between.toList := by
    rw [hbetween, List.mem_cons, not_or]
    exact ⟨fun h => hd (h ▸ .head _), hrest⟩
  have hend (i : Nat) (value : List Char) :
      replaceAll (hole i) value after.toList = after.toList := by
    have hnil : replaceAll (hole i) value [] = [] := rfl
    have hkept := replaceAll_hole_of_notMem hafter i value []
    rwa [hnil, List.append_nil] at hkept
  have hfirst : replaceAll (hole 0) found.toList template.toList =
      before.toList ++ (found.toList ++ d :: (rest ++ (hole 1 ++ after.toList))) := by
    rw [htemplate, replaceAll_hole_of_notMem hbefore, replaceAll_hole_append,
      replaceAll_hole_of_notMem hnone, replaceAll_other_hole Nat.zero_ne_one, hend, hbetween,
      List.cons_append]
  have hsecond : replaceAll (hole 1) next.toList
      (replaceAll (hole 0) found.toList template.toList) =
        before.toList ++ ((refilled found next).toList ++
          (between.toList ++ (next.toList ++ after.toList))) := by
    rw [hfirst, replaceAll_hole_of_notMem hbefore, replaceAll_append_cons hd (hole_ne_nil 1),
      replaceAll_hole_of_notMem hrest, replaceAll_hole_append, hend, refilled,
      String.toList_ofList, hbetween, List.cons_append]
    rfl
  apply String.toList_inj.mp
  simp only [String.toList_append, ← hsecond]
  exact String.toList_ofList

/-- What the messages that show a token make of what they show, under their codes. -/
inductive Shows (found : String) : Nat → String → Prop where
  | unexpected : Shows found 1100 ("Unexpected " ++ found)
  | mismatched (expected : String) : Shows found 1101
      ("Mismatched input " ++ (refilled found expected ++ (", " ++ (expected ++ " expected"))))
  | mismatchedSet (set : String) : Shows found 1103
      ("Mismatched input " ++ (refilled found set ++ (" expecting set " ++ set)))

theorem fill_unexpected (found : String) :
    fill .unexpected [found] = "Unexpected " ++ found := by
  apply String.toList_inj.mp
  have hfilled : fillFrom 0 [found] "Unexpected \x7b0\x7d".toList =
      "Unexpected ".toList ++ (found.toList ++ []) := rfl
  rw [fill, unexpected, fillTemplate, hfilled, String.toList_ofList, List.append_nil,
    String.toList_append]

theorem fill_mismatched (found expected : String) : fill .mismatched [found, expected] =
    "Mismatched input " ++ (refilled found expected ++ (", " ++ (expected ++ " expected"))) :=
  fillTemplate_pair rfl (by decide) rfl (by decide) (by decide) (by decide) found expected

theorem fill_mismatchedSet (found set : String) : fill .mismatchedSet [found, set] =
    "Mismatched input " ++ (refilled found set ++ (" expecting set " ++ set)) := by
  have hfilled : fill .mismatchedSet [found, set] =
      "Mismatched input " ++ (refilled found set ++ (" expecting set " ++ (set ++ ""))) :=
    fillTemplate_pair rfl (by decide) rfl (by decide) (by decide) (by decide) found set
  rwa [String.append_empty] at hfilled

variable {found text : String} {code : Nat}

/-- A text that has no place for the argument after it is shown as it is. The message with only one
argument shows any. -/
theorem Shows.infix (h : Shows found code text)
    (hkept : code = 1100 ∨ occurrences (hole 1) found.toList = 0) :
    found.toList <:+: text.toList := by
  have hrefilled (next : String) (hcode : code ≠ 1100) : refilled found next = found :=
    refilled_eq_self (hkept.resolve_left hcode) next
  cases h with
  | unexpected =>
    rw [String.toList_append]
    exact List.infix_append_right
  | mismatched expected =>
    rw [hrefilled _ (by decide), String.toList_append, String.toList_append]
    exact List.infix_append' _ _ _
  | mismatchedSet set =>
    rw [hrefilled _ (by decide), String.toList_append, String.toList_append]
    exact List.infix_append' _ _ _

end Message

theorem Token.toList_quoted (t : Token) :
    t.quoted.toList = ['\x27'] ++ (t.text.toList ++ ['\x27']) := by
  change (toString "'" ++ t.text ++ toString "'").toList = _
  rw [String.toList_append, String.toList_append, List.append_assoc]
  rfl

/-- The quotes bring in no place. -/
theorem Token.occurrences_quoted (t : Token) :
    occurrences (Message.hole 1) t.quoted.toList = occurrences (Message.hole 1) t.text.toList := by
  have hquote : '\x27' ∉ Message.hole 1 := by decide
  rw [t.toList_quoted, List.singleton_append, ← List.nil_append (_ :: _),
    occurrences_append_cons hquote (Message.hole_ne_nil 1),
    occurrences_append_cons hquote (Message.hole_ne_nil 1), occurrences.eq_1, Nat.zero_add,
    Nat.add_zero]

/-- The messages of the grammar that show what was found are the only ones under their codes. -/
theorem Production.Says.shows {found : String} {m : Message} {args : List String}
    (h : Says found m args) (hcode : m.code ∈ [1100, 1101, 1103]) :
    Message.Shows found m.code (m.fill args) := by
  cases h with
  | unexpected =>
    rw [Message.fill_unexpected]
    exact .unexpected
  | mismatched expected =>
    rw [Message.fill_mismatched]
    exact .mismatched expected
  | mismatchedSet set =>
    rw [Message.fill_mismatchedSet]
    exact .mismatchedSet set
  | expected => exact absurd hcode (by decide)
  | tooDeep => exact absurd hcode (by decide)

/-- Diagnostic `d` names token `t` of a list: it spans the token, and shows it. -/
structure Diagnostic.Names (tokens : Array Token) (d : Diagnostic) (t : Token) : Prop where
  spans : ∃ i, tokens[i]? = some t ∧ d.span = some ⟨(Offsets.ofTokens tokens).get i, t.length⟩
  significant : t.isHidden = false
  shows : Message.Shows t.quoted d.code d.text

/-- A token that a diagnostic names is in its text as it is written, unless it has a place for the
second argument. -/
theorem Diagnostic.Names.infix {tokens : Array Token} {d : Diagnostic} {t : Token}
    (h : d.Names tokens t)
    (hkept : d.code = 1100 ∨ occurrences (Message.hole 1) t.text.toList = 0) :
    t.quoted.toList <:+: d.text.toList :=
  h.shows.infix (t.occurrences_quoted ▸ hkept)

/-- Diagnostic `d` shows what was found: the end of the input, or the token that it spans. -/
inductive Diagnostic.ShowsFound (tokens : Array Token) (d : Diagnostic) : Prop where
  | atEnd : Message.Shows "<EOF>" d.code d.text → ShowsFound tokens d
  | token {t : Token} : d.Names tokens t → ShowsFound tokens d

section
variable [Alphabet] {source : String} {xmlLiterals : Bool} {d : Diagnostic}

theorem program_showsFound
    (hd : d ∈ (Cursor.initial.program (.ofSource source xmlLiterals)).2.problems)
    (hcode : d.code ∈ [1100, 1101, 1103]) :
    d.ShowsFound (tokenize source xmlLiterals).tokens := by
  obtain ⟨m, -, place, args, hplaced, rfl⟩ := program_mayReport _ d hd
  obtain ⟨found, hwording, hfound⟩ := hplaced.wording
  rw [Production.diagnosticAt_code] at hcode
  have hshows := hwording.shows hcode
  rw [← Production.diagnosticAt_code (Input.ofSource source xmlLiterals).lines place m args,
    ← Production.diagnosticAt_text (Input.ofSource source xmlLiterals).lines place m args] at hshows
  rcases hfound with rfl | ⟨x, rfl, rfl⟩
  · exact .atEnd hshows
  · obtain ⟨p, hp⟩ := Array.mem_iff_getElem?.mp (hplaced.mem x rfl)
    obtain ⟨htoken, hsignificant⟩ := (Input.ofSource_cuts source xmlLiterals).placed hp
    have hspan := congrArg Diagnostic.span (diagnosticAt_token htoken m args)
    exact .token ⟨⟨x.index, htoken, hspan⟩, hsignificant, hshows⟩

theorem tokenize_code_notMem (hd : d ∈ (tokenize source xmlLiterals).diagnostics) :
    d.code ∉ [1100, 1101, 1103] := by
  obtain ⟨fault, _, _, rfl⟩ := tokenize_reportsFaults source xmlLiterals d hd
  change fault.message.code ∉ _
  cases fault <;> decide

end

/-- The arguments of a message are put in their places at once, unless they bring in places for
later ones. So the diagnostics that name a token contain it as it is written, unless the token has a
place for the second argument. -/
theorem parse_shows_tokens [Alphabet] (template : String) (args : List String) (source : String)
    (options : ParseOptions) :
    (Message.FillsOwnPlaces template.toList args →
      Message.fillTemplate template args = Message.substitute template args) ∧
    let tokens := (tokenize source options.xmlLiterals).tokens
    ∀ d ∈ (parse source options).diagnostics, d.code ∈ [1100, 1101, 1103] →
      d.ShowsFound tokens ∧ ∀ t, d.Names tokens t →
        d.code = 1100 ∨ occurrences (Message.hole 1) t.text.toList = 0 →
          t.quoted.toList <:+: d.text.toList := by
  refine ⟨Message.fillTemplate_eq_substitute, ?_⟩
  intro tokens d hd hcode
  refine ⟨?_, fun t => Diagnostic.Names.infix⟩
  obtain ⟨last, hdiagnostics, hlast⟩ := parse_diagnostics_append source options
  rw [hdiagnostics, Array.mem_append, syntaxProblems, Array.mem_append] at hd
  rcases hd with (hd | hd) | hd
  · exact absurd hcode (tokenize_code_notMem hd)
  · exact program_showsFound hd hcode
  · rw [(hlast d hd).1] at hcode
    exact absurd hcode (by decide)

/-- The place of an argument that is filled in already may stand in a later one. -/
theorem parse_shows_tokens_earlier :
    Message.fillTemplate "\x7b1\x7d \x7b0\x7d" ["x", "'\x7b0\x7d'"] = "'\x7b0\x7d' x" ∧
      ∃ d ∈ (parse "a '\x7b0\x7d'" .default).diagnostics,
        d.text = "Mismatched input ''\x7b0\x7d'', ';' expected" ∧
        d.ShowsFound (tokenize "a '\x7b0\x7d'" true).tokens := by
  have hparse : ∃ d ∈ (parse "a '\x7b0\x7d'" .default).diagnostics,
      d.code ∈ [1100, 1101, 1103] ∧ d.text = "Mismatched input ''\x7b0\x7d'', ';' expected" := by
    decide +kernel
  obtain ⟨d, hd, hcode, htext⟩ := hparse
  obtain ⟨hfill, hshows⟩ := parse_shows_tokens "\x7b1\x7d \x7b0\x7d" ["x", "'\x7b0\x7d'"]
    "a '\x7b0\x7d'" .default
  refine ⟨?_, d, hd, htext, (hshows d hd hcode).1⟩
  rw [hfill (by decide)]
  rfl

/-- What was expected after a name is also filled in where the string found there has a place for
it. -/
theorem parse_rewrites_token :
    Message.fill .mismatched ["''\x7b1\x7d''", "';'"] ≠
        Message.substitute Message.mismatched.template ["''\x7b1\x7d''", "';'"] ∧
      (∃ t, (tokenize "a '\x7b1\x7d'" true).tokens[2]? = some t ∧ t.quoted = "''\x7b1\x7d''") ∧
      ∃ d ∈ (parse "a '\x7b1\x7d'" .default).diagnostics,
        d.code = 1101 ∧ d.span = some ⟨2, 5⟩ ∧ ¬"''\x7b1\x7d''".toList <:+: d.text.toList := by
  refine ⟨by decide, ⟨⟨.stringLiteral, "'\x7b1\x7d'", 1, 2, 2, false, false⟩, rfl, rfl⟩, ?_⟩
  decide +kernel

end ScriptTree
