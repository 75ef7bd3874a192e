import ScriptTree.Proofs.CallAllowance
import ScriptTree.Proofs.FailureProtocol
import ScriptTree.Proofs.LexicalReports

/-!
Where the problems of a source stand. A diagnostic with a span lies in the source and has the line
on which the span begins. The grammar reports at significant tokens, each report spanning one of
them; only the missing `in` of a `for each` loop has no place, when nothing stands where its head
would begin.
-/
namespace ScriptTree

/-- Where diagnostic `d` has a span, it lies in the source and begins on the line of `d`. -/
def Diagnostic.LiesIn (d : Diagnostic) (source : String) : Prop :=
  ∀ span, d.span = some span →
    d.line = some ((LineMap.ofText source).lineOf span.start) ∧ span.stop ≤ source.utf8ByteSize

theorem Diagnostic.liesIn_ofMessage (source : String) (m : Message) (args : List String) :
    (ofMessage m args).LiesIn source := nofun

theorem Diagnostic.liesIn_located {source : String} {span : Span} {line : Nat}
    (hline : (LineMap.ofText source).lineOf span.start = line)
    (hstop : span.stop ≤ source.utf8ByteSize) (m : Message) (args : List String) :
    (located span line m args).LiesIn source := by
  rintro _ ⟨⟩
  exact ⟨congrArg some hline.symm, hstop⟩

section
variable [Alphabet] {source : String} {xmlLiterals : Bool}

section
variable {i : Nat} {t : Token}
  (h : (tokenize source xmlLiterals).tokens[i]? = some t)
include h

/-- A report at the span of a token, on its line. -/
theorem liesIn_token (m : Message) (args : List String) :
    (Diagnostic.located ⟨(Offsets.ofTokens (tokenize source xmlLiterals).tokens).get i, t.length⟩
      (t.line - 1) m args).LiesIn source := by
  obtain ⟨before, after, hsource, hbefore⟩ := (tokenize_faithful source xmlLiterals).readsAt h
  have hsize := congrArg String.utf8ByteSize hsource
  rw [String.utf8ByteSize_append, String.utf8ByteSize_append] at hsize
  apply Diagnostic.liesIn_located
  · dsimp only
    have hline := congrArg LineColumn.line (tokenize_standsAt h).locate_eq
    rwa [LineMap.locate] at hline
  · dsimp only [Span.stop, Token.length]
    omega

/-- The grammar reports over the whole of a token. -/
theorem diagnosticAt_token (m : Message) (args : List String) :
    Production.diagnosticAt (.ofText source) (some ⟨i, t⟩) m args =
      .located ⟨(Offsets.ofTokens (tokenize source xmlLiterals).tokens).get i, t.length⟩
        (t.line - 1) m args := by
  unfold Production.diagnosticAt
  dsimp only
  rw [(tokenize_standsAt h).offsetOf_eq]

end

/-- The place of a report of the grammar: one significant token, or the end of the input before the
head of a `for each` loop. -/
inductive GrammarPlace (source : String) (xmlLiterals : Bool) (d : Diagnostic) : Prop where
  | token : (tokenize source xmlLiterals).tokens[i]? = some t → t.isHidden = false →
      d.span = some ⟨(Offsets.ofTokens (tokenize source xmlLiterals).tokens).get i, t.length⟩ →
      GrammarPlace source xmlLiterals d
  | missingIn : (Input.ofSource source xmlLiterals).EndsBeforeHead →
      d = .ofMessage .expected ["'in'"] → GrammarPlace source xmlLiterals d

/-! What the scan reports. -/

theorem problems_liesIn : ∀ d ∈ problems (tokenize source xmlLiterals).tokens.toList,
    d.LiesIn source := by
  intro d hd
  obtain ⟨⟨t, i⟩, hmem, hproblem⟩ := List.mem_filterMap.mp hd
  have ht : (tokenize source xmlLiterals).tokens[i]? = some t := by
    simpa using List.mem_zipIdx_iff_getElem?.mp hmem
  obtain ⟨fault, -, rfl⟩ := Option.map_eq_some_iff.mp hproblem
  have hlies := liesIn_token ht fault.message []
  rw [Offsets.get_ofTokens] at hlies
  exact hlies

theorem tokenize_liesIn : ∀ d ∈ (tokenize source xmlLiterals).diagnostics, d.LiesIn source := by
  intro d hd
  obtain ⟨n, -, hdiagnostics, -⟩ := tokenize_diagnostics source xmlLiterals
  rw [← Array.mem_toList_iff, hdiagnostics] at hd
  rcases List.mem_append.mp hd with hd | hd
  · exact problems_liesIn d hd
  · obtain rfl := List.eq_of_mem_replicate hd
    exact Diagnostic.liesIn_located rfl (Nat.le_refl _) _ _

/-! What the grammar reports. -/

/-- Without significant tokens there is nothing to report. -/
theorem program_problems_empty
    (h : (Input.ofSource source xmlLiterals).significant = #[]) :
    (Cursor.initial.program (.ofSource source xmlLiterals)).2.problems = #[] := by
  have hend : (Input.ofSource source xmlLiterals).significant.size ≤ Cursor.initial.pos := by
    rw [h]
    exact Nat.le_refl 0
  rw [program_at_end (Input.ofSource_cuts source xmlLiterals).toOver hend]
  rfl

theorem program_reports :
    ∀ d ∈ (Cursor.initial.program (.ofSource source xmlLiterals)).2.problems,
      GrammarPlace source xmlLiterals d ∧ d.LiesIn source := by
  intro d hd
  obtain ⟨m, -, place, args, hplaced, rfl⟩ := program_mayReport _ d hd
  cases place with
  | some x =>
    obtain ⟨p, hp⟩ := Array.mem_iff_getElem?.mp (hplaced.mem x rfl)
    obtain ⟨htoken, hshown⟩ := (Input.ofSource_cuts source xmlLiterals).placed hp
    have hreport := diagnosticAt_token htoken m args
    refine ⟨.token htoken hshown (congrArg Diagnostic.span hreport), ?_⟩
    exact hreport ▸ liesIn_token htoken m args
  | none =>
    refine ⟨?_, Diagnostic.liesIn_ofMessage source m args⟩
    rcases hplaced.unplaced rfl with hnone | ⟨rfl, rfl, hends⟩
    · rw [program_problems_empty hnone] at hd
      exact absurd hd (Array.not_mem_empty _)
    · exact .missingIn hends rfl

/-- What parsing reports after the problems of the tokens and of the grammar has no span. -/
theorem parse_diagnostics_append (source : String) (options : ParseOptions) :
    ∃ last : Diagnostics,
      (parse source options).diagnostics = syntaxProblems source options ++ last ∧
      ∀ d ∈ last, d.code = 1200 ∧ d.span = none := by
  obtain ⟨-, -, -, hproblems⟩ | ⟨error, -, hparse⟩ := parse_built_or_failed source options
  · refine ⟨#[], ?_, fun d hd => absurd hd (Array.not_mem_empty d)⟩
    rw [hproblems, Array.append_empty]
  · refine ⟨#[.ofMessage .buildFailed [error.message]], ?_, ?_⟩
    · rw [hparse, Array.push_eq_append]
    · intro d hd
      obtain rfl := Array.mem_singleton.mp hd
      exact ⟨rfl, rfl⟩

/-- Every problem that parsing reports with a span lies in the source and has the line on which its
span begins. What the grammar reports, after the problems of the tokens and before that of a script
that cannot be built, spans one significant token each; without a span it reports only the missing
`in` of a `for each` loop where the input ends before the head. -/
theorem parse_problems_placed (source : String) (options : ParseOptions) :
    let reported := (Cursor.initial.program (.ofSource source options.xmlLiterals)).2.problems
    (∀ d ∈ (parse source options).diagnostics, d.LiesIn source) ∧
    (∃ last : Diagnostics, (parse source options).diagnostics =
      (tokenize source options.xmlLiterals).diagnostics ++ reported ++ last ∧
        ∀ d ∈ last, d.code = 1200 ∧ d.span = none) ∧
    ∀ d ∈ reported, GrammarPlace source options.xmlLiterals d := by
  intro reported
  obtain ⟨last, hdiagnostics, hlast⟩ := parse_diagnostics_append source options
  refine ⟨?_, ⟨last, hdiagnostics, hlast⟩, fun d hd => (program_reports d hd).1⟩
  intro d hd
  rw [hdiagnostics] at hd
  rcases Array.mem_append.mp hd with hd | hd
  · rcases Array.mem_append.mp hd with hd | hd
    · exact tokenize_liesIn d hd
    · exact (program_reports d hd).2
  · intro span hspan
    cases (hlast d hd).2.symm.trans hspan

end

/-- Where the input ends in place of the head, the missing `in` has no place. -/
example : (Cursor.initial.program (.ofSource "for each (" true)).2.problems.back? =
    some (.ofMessage .expected ["'in'"]) := by decide +kernel

end ScriptTree
