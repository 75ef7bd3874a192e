import ScriptTree.Proofs.BasicSteps
import ScriptTree.Proofs.ProgramWritten
import ScriptTree.Proofs.TokenPlaces

/-!
What parsing reports and what it gives when no script can be built. The scan and the grammar report
under numbers of their own, so that the failure, which is reported last, is told from all problems
before it. The script always has the length of its source, and a reporter has no part in it.
-/
namespace ScriptTree

/-! Reporters. -/

namespace Reporter
variable {σ : Type}

@[simp] theorem reportAll_append (r : Reporter σ) (ds es : Diagnostics) :
    r.reportAll (ds ++ es) = (r.reportAll ds).reportAll es := Array.foldl_append

@[simp] theorem reportAll_push (r : Reporter σ) (ds : Diagnostics) (d : Diagnostic) :
    r.reportAll (ds.push d) = (r.reportAll ds).report d := Array.foldl_push

end Reporter

/-- A report of the scan: what is wrong with a lexeme, at a place. -/
def LexicalFault.Reports (d : Diagnostic) : Prop :=
  ∃ (fault : LexicalFault) (span : Span) (line : Nat), d = .located span line fault.message []

namespace Scan

/-- All that was reported is a fault of a lexeme. -/
def ReportsFaults (s : Scan) : Prop := ∀ d ∈ s.diagnostics, LexicalFault.Reports d

theorem ReportsFaults.report {s : Scan} (h : s.ReportsFaults) (length : Nat)
    (fault : LexicalFault) : (s.report length fault.message).ReportsFaults := by
  intro d hd
  rcases Array.mem_push.mp hd with hd | rfl
  · exact h d hd
  · exact ⟨fault, _, _, rfl⟩

theorem ReportsFaults.take [Alphabet] {s : Scan} (h : s.ReportsFaults) (xmlLiterals : Bool)
    (c : Char)
    (rest : List Char) : (s.take xmlLiterals c rest).1.ReportsFaults := by
  unfold Scan.take push
  dsimp only
  split
  · rename_i fault _
    exact h.report _ fault
  · exact h

theorem ReportsFaults.closeText {s : Scan} (h : s.ReportsFaults) : s.closeText.ReportsFaults := by
  unfold Scan.closeText
  split
  · exact h.report 0 .unterminatedXml
  · exact h

theorem ReportsFaults.finish {s : Scan} (h : s.ReportsFaults) : s.finish.ReportsFaults := by
  unfold Scan.finish
  split
  · exact h.report 0 .unterminatedXml
  · exact h

end Scan

theorem tokenize_reportsFaults [Alphabet] (source : String) (xmlLiterals : Bool) :
    ∀ d ∈ (tokenize source xmlLiterals).diagnostics, LexicalFault.Reports d := by
  rw [tokenize_eq]
  apply Scan.ReportsFaults.finish
  apply Scan.ReportsFaults.closeText
  apply cut_preserves (P := fun _ (s : Scan) => s.ReportsFaults)
  · intro s c rest hs
    exact hs.take xmlLiterals c rest
  · intro s c rest hs
    exact hs
  · intro d hd
    exact absurd hd (Array.not_mem_empty d)

/-! The number of a failure. -/

theorem sourceLength_tokenize [Alphabet] (source : String) (xmlLiterals : Bool) :
    (Offsets.ofTokens (tokenize source xmlLiterals).tokens).sourceLength = source.utf8ByteSize := by
  have htexts : (tokenize source xmlLiterals).tokens.toList.flatMap (·.text.toList) =
      source.toList := tokenize_texts source xmlLiterals
  rw [Offsets.sourceLength_ofTokens, totalLength_eq, htexts, String.ofList_toList]

/-- A script that is built goes over the whole source and has all comments. -/
theorem parse_built_or_failed [Alphabet] (source : String) (options : ParseOptions) :
    ((∀ error, ¬Unbuildable source options error) ∧
        (parse source options).script.range = ⟨0, source.utf8ByteSize⟩ ∧
        (parse source options).script.comments = TokenTable.comments
          (.ofTokens (tokenize source options.xmlLiterals).tokens) ∧
        (parse source options).diagnostics = syntaxProblems source options) ∨
      ∃ error, Unbuildable source options error ∧ parse source options =
        ⟨.empty source.utf8ByteSize,
          (syntaxProblems source options).push (.ofMessage .buildFailed [error.message])⟩ := by
  rw [← sourceLength_tokenize source options.xmlLiterals]
  refine (parse_cases source options).imp_left ?_
  rintro ⟨root, c, hread, hscript, hproblems⟩
  refine ⟨?_, ?_, ?_, hproblems⟩
  · rintro _ (⟨hhalt⟩ | ⟨hread', herror⟩)
    · cases hread.symm.trans hhalt
    · cases hread.symm.trans hread'
      cases hscript.symm.trans herror
  · obtain ⟨_, _, heq⟩ := ofConcrete_eq_ok hscript
    rw [heq]
  · obtain ⟨_, _, heq⟩ := ofConcrete_eq_ok hscript
    rw [heq]

end ScriptTree
