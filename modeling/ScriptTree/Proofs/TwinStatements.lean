import ScriptTree.Proofs.TwinExpressions

/-!
Hidden tokens do not matter to the grammar. Two token lists with the same significant tokens are
read into trees of the same shape over the same tokens, or their nesting is too deep at the same
token, and what is reported reads the same.
-/
namespace ScriptTree

namespace Twins
open Production
variable {w : Twins} {c c' : Cursor}

/-! Statements. -/

theorem tests_atClauseEnd : w.Tests atClauseEnd := by
  intro c c' hc
  refine .bind_current hc fun k _ => ?_
  split
  · exact agree_pure rfl hc
  · exact agree_pure rfl hc
  · exact .bind_peek hc fun _ _ => agree_pure rfl hc
  · exact agree_pure rfl hc

theorem agree_requiredLeaf (k : Kind) (hk : k ≠ .endOfFile) (hc : w.SameCursor c c') :
    w.Agree (List.Forall₂ w.SameTree) c c' (requiredLeaf k) (requiredLeaf k) := by
  refine .bind_sees hc fun found hfound => ?_
  split
  · rename_i hsees
    exact (agree_leaf_of_kindAt k (hfound hsees) hk hc).bind fun ht hc =>
      agree_pure (.cons ht .nil) hc
  · exact (agree_reportExpected _ hc).bind fun _ hc => agree_pure .nil hc

theorem SameTree.clause {t t' : Concrete} (h : w.SameTree t t') :
    w.SameTree (clause t) (clause t') :=
  .node h.start h.lastToken? (.cons h .nil)

theorem mirrors_jumpStatement : w.Mirrors jumpStatement := by
  intro c c' hc
  refine .bind_current hc fun kind _ => ?_
  refine (agree_advance hc).bind fun hstart hc => ?_
  refine .bind_current hc fun k hk => ?_
  refine .bind_afterLineBreak hc fun broken => ?_
  dsimp only
  split
  · rename_i hlabel
    refine (agree_leaf_of_kindAt _ hk ?_ hc).bind fun hlabel hc => ?_
    · rintro rfl
      cases hlabel
    · exact (agree_endStatement hc).bind fun _ hc => agree_node _ hstart (.cons hlabel .nil) hc
  · exact (agree_endStatement hc).bind fun _ hc => agree_node _ hstart .nil hc

theorem agree_emptyStatement (hpos : c.pos < w.size) (hc : w.SameCursor c c') :
    w.Agree w.SameTree c c' emptyStatement emptyStatement := by
  refine (agree_advance_rank hc).bind ?_
  rintro _ _ _ _ ⟨rfl, rfl⟩ hc'
  exact agree_pure (.node (.index w hc.le_size) (.rank hpos) .nil) hc'

section
variable {g : Grammar} (hg : g.Mirrored w)
include hg

theorem mirrors_declarations (noIn : Bool) : w.Mirrors (declarations g noIn) := by
  intro c c' hc
  refine .bind_current hc fun keyword _ => ?_
  refine (agree_advance hc).bind fun hstart hc => ?_
  refine (agree_separated ?_ hc).bind fun hdeclared hc => agree_node _ hstart hdeclared hc
  intro c c' hc
  refine (mirrors_identifier hc).bind fun hname hc => ?_
  refine .bind_eat hc fun found _ _ hc => ?_
  split
  · refine (hg.assignment noIn hc).bind fun hvalue hc => ?_
    exact agree_node _ hname.start (.cons hname (.cons hvalue .nil)) hc
  · exact agree_pure hname hc

theorem mirrors_constStatement : w.Mirrors (constStatement g) := by
  intro c c' hc
  refine .bind_index hc fun hstart => ?_
  refine (mirrors_declarations hg false hc).bind fun hdeclared hc => ?_
  refine (agree_endStatement hc).bind fun _ hc => ?_
  exact .bind_get (.bind_read (agree_pure (hdeclared.withStop (hc.stop hstart)) hc))

theorem mirrors_variableStatement : w.Mirrors (variableStatement g) := by
  intro c c' hc
  refine (mirrors_declarations hg false hc).bind fun hdeclared hc => ?_
  exact (agree_endStatement hc).bind fun _ hc => agree_pure hdeclared hc

theorem mirrors_condition : w.Mirrors (condition g) := by
  intro c c' hc
  refine (agree_expect _ hc).bind fun _ hc => ?_
  refine (mirrors_expression hg false hc).bind fun hinside hc => ?_
  exact (agree_expect _ hc).bind fun _ hc => agree_pure hinside hc

theorem mirrors_ifStatement : w.Mirrors (ifStatement g) := by
  intro c c' hc
  refine (agree_advance hc).bind fun hstart hc => ?_
  refine (mirrors_condition hg hc).bind fun htest hc => ?_
  refine (hg.statement hc).bind fun hconsequence hc => ?_
  refine .bind_eat hc fun found _ _ hc => ?_
  split
  · refine (hg.statement hc).bind fun halternative hc => ?_
    exact agree_node _ hstart (.cons htest (.cons hconsequence (.cons halternative .nil))) hc
  · exact agree_node _ hstart (.cons htest (.cons hconsequence .nil)) hc

theorem mirrors_doStatement : w.Mirrors (doStatement g) := by
  intro c c' hc
  refine (agree_advance hc).bind fun hstart hc => ?_
  refine (hg.statement hc).bind fun hbody hc => ?_
  refine (agree_expect _ hc).bind fun _ hc => ?_
  refine (mirrors_condition hg hc).bind fun htest hc => ?_
  refine (agree_discard (agree_eat _ hc)).bind fun _ hc => ?_
  exact agree_node _ hstart (.cons hbody (.cons htest .nil)) hc

theorem mirrors_whileStatement : w.Mirrors (whileStatement g) := by
  intro c c' hc
  refine (agree_advance hc).bind fun hstart hc => ?_
  refine (mirrors_condition hg hc).bind fun htest hc => ?_
  refine (hg.statement hc).bind fun hbody hc => ?_
  exact agree_node _ hstart (.cons htest (.cons hbody .nil)) hc

theorem mirrors_withStatement : w.Mirrors (withStatement g) := by
  intro c c' hc
  refine (agree_advance hc).bind fun hstart hc => ?_
  refine (mirrors_condition hg hc).bind fun hobject hc => ?_
  refine (hg.statement hc).bind fun hbody hc => ?_
  exact agree_node _ hstart (.cons hobject (.cons hbody .nil)) hc

theorem agree_forIteration {start start' : Nat} (hstart : w.SamePlace start start')
    {item item' : Concrete} (hitem : w.SameTree item item') (hc : w.SameCursor c c') :
    w.Agree w.SameTree c c' (forIteration g start item) (forIteration g start' item') := by
  refine (agree_discard (agree_advance hc)).bind fun _ hc => ?_
  refine (mirrors_expression hg false hc).bind fun hobject hc => ?_
  exact agree_node _ hstart (.cons hitem (.cons hobject .nil)) hc

theorem mirrors_optionalClause (before : Kind) : w.Mirrors (optionalClause g before) := by
  intro c c' hc
  refine .bind_sees hc fun found _ => ?_
  split
  · exact .bind_index hc fun hplace => agree_pure (.absent hplace _) hc
  · exact (mirrors_expression hg false hc).bind fun ht hc => agree_pure ht.clause hc

theorem agree_forSteps {start start' : Nat} (hstart : w.SamePlace start start')
    {first first' : Option Concrete} (hfirst : Option.Rel w.SameTree first first')
    (hc : w.SameCursor c c') :
    w.Agree w.SameTree c c' (forSteps g start first) (forSteps g start' first') := by
  have hrest {initial initial' : Concrete} (hinitial : w.SameTree initial initial')
      {c c' : Cursor} (hc : w.SameCursor c c') :=
    (agree_expect .semicolon hc).bind fun _ hc =>
      (mirrors_optionalClause hg .semicolon hc).bind fun htest hc =>
        (agree_expect .semicolon hc).bind fun _ hc =>
          (mirrors_optionalClause hg .closeParen hc).bind fun hstep hc =>
            agree_node .forStep hstart (.cons hinitial (.cons htest (.cons hstep .nil))) hc
  cases hfirst with
  | some ht => exact hrest ht.clause hc
  | none => exact .bind_index hc fun hplace => hrest (.absent hplace _) hc

theorem mirrors_forHead : w.Mirrors (forHead g) := by
  intro c c' hc
  refine .bind_index hc fun hstart => ?_
  refine .bind_sees hc fun found _ => ?_
  split
  · exact agree_forSteps hg hstart .none hc
  · refine .bind_sees hc fun declares _ => ?_
    refine Agree.choose (mirrors_declarations hg true hc) (mirrors_expression hg true hc)
      fun hfirst hc => ?_
    refine .bind_sees hc fun iterates _ => ?_
    split
    · exact agree_forIteration hg hstart hfirst hc
    · exact agree_forSteps hg hstart (.some hfirst) hc

theorem mirrors_forStatement : w.Mirrors (forStatement g) := by
  intro c c' hc
  refine (agree_advance hc).bind fun hstart hc => ?_
  refine .bind_eat hc fun each _ _ hc => ?_
  refine (agree_expect _ hc).bind fun _ hc => ?_
  refine .bind_token? hc fun {x y} _ => ?_
  refine (mirrors_forHead hg hc).bind fun hhead hc => ?_
  refine (agree_expect _ hc).bind fun _ hc => ?_
  refine (hg.statement hc).bind fun hbody hc => ?_
  rw [hhead.kind_eq]
  split
  · exact agree_node _ hstart (.cons hhead (.cons hbody .nil)) hc
  · split
    · refine (agree_reportAt x y _ _ hc).bind fun _ hc => ?_
      exact agree_node _ hstart (.cons hhead (.cons hbody .nil)) hc
    · exact agree_node _ hstart (.cons hhead (.cons hbody .nil)) hc

theorem mirrors_returnStatement : w.Mirrors (returnStatement g) := by
  intro c c' hc
  refine (agree_advance hc).bind fun hstart hc => ?_
  refine .bind_current hc fun k _ => ?_
  refine .bind_afterLineBreak hc fun broken => ?_
  dsimp only
  split
  · exact (agree_endStatement hc).bind fun _ hc => agree_node _ hstart .nil hc
  · refine (mirrors_expression hg false hc).bind fun hvalue hc => ?_
    exact (agree_endStatement hc).bind fun _ hc => agree_node _ hstart (.cons hvalue .nil) hc

theorem mirrors_throwStatement : w.Mirrors (throwStatement g) := by
  intro c c' hc
  refine (agree_advance hc).bind fun hstart hc => ?_
  refine (mirrors_expression hg false hc).bind fun hvalue hc => ?_
  exact (agree_endStatement hc).bind fun _ hc => agree_node _ hstart (.cons hvalue .nil) hc

theorem mirrors_caseClause : w.Mirrors (caseClause g) := by
  intro c c' hc
  refine (agree_advance hc).bind fun hstart hc => ?_
  refine (mirrors_expression hg false hc).bind fun htest hc => ?_
  refine (agree_expect _ hc).bind fun _ hc => ?_
  refine (agree_statements hg tests_atClauseEnd hc).bind fun hbody hc => ?_
  exact agree_node _ hstart (.cons htest hbody) hc

theorem mirrors_defaultClause : w.Mirrors (defaultClause g) := by
  intro c c' hc
  refine (agree_advance hc).bind fun hstart hc => ?_
  refine (agree_expect _ hc).bind fun _ hc => ?_
  refine (agree_statements hg tests_atClauseEnd hc).bind fun hbody hc => ?_
  exact agree_node _ hstart hbody hc

theorem mirrors_switchStatement : w.Mirrors (switchStatement g) := by
  intro c c' hc
  refine (agree_advance hc).bind fun hstart hc => ?_
  refine (mirrors_condition hg hc).bind fun hsubject hc => ?_
  refine (agree_expect _ hc).bind fun _ hc => ?_
  refine Agree.bind (R := List.Forall₂ w.SameTree) ?_ fun hclauses hc => ?_
  · refine agree_iterate (R := List.Forall₂ w.SameTree) .nil hc fun hclauses hc => ?_
    refine .bind_atEnd hc fun atEnd _ => ?_
    refine .bind_sees hc fun closes _ => ?_
    split
    · exact agree_pure (.inr (List.rel_reverse hclauses)) hc
    refine .bind_current hc fun k _ => ?_
    split
    · exact (mirrors_caseClause hg hc).bind fun hclause hc =>
        agree_pure (.inl (.cons hclause hclauses)) hc
    refine (tests_atClauseEnd hc).bind ?_
    rintro ends _ _ _ rfl hc
    split
    · exact (mirrors_defaultClause hg hc).bind fun hclause hc =>
        agree_pure (.inl (.cons hclause hclauses)) hc
    · refine (agree_reportUnexpected hc).bind fun _ hc => ?_
      exact (agree_skipping tests_atClauseEnd hc).bind fun _ hc => agree_pure (.inl hclauses) hc
  · refine (agree_expect _ hc).bind fun _ hc => ?_
    exact agree_node _ hstart (.cons hsubject hclauses) hc

theorem mirrors_exceptionFilter : w.Mirrors (catchClause.exceptionFilter g) := by
  intro c c' hc
  refine (agree_advance hc).bind fun hstart hc => ?_
  refine (mirrors_expression hg false hc).bind fun htest hc => ?_
  exact agree_node _ hstart (.cons htest .nil) hc

theorem mirrors_catchClause : w.Mirrors (catchClause g) := by
  intro c c' hc
  refine (agree_advance hc).bind fun hstart hc => ?_
  refine (agree_expect _ hc).bind fun _ hc => ?_
  refine (mirrors_identifier hc).bind fun hexception hc => ?_
  have hrest {filter filter' : List Concrete} (hfilter : List.Forall₂ w.SameTree filter filter')
      {c c' : Cursor} (hc : w.SameCursor c c') :=
    (agree_expect .closeParen hc).bind fun _ hc => (mirrors_block hg hc).bind fun hbody hc =>
      agree_node .catchKeyword hstart
        (List.rel_append (List.Forall₂.cons hexception hfilter) (.cons hbody .nil)) hc
  refine .bind_sees hc fun found _ => ?_
  split
  · exact (mirrors_exceptionFilter hg hc).bind fun hfilter hc => hrest (.cons hfilter .nil) hc
  · exact hrest .nil hc

theorem mirrors_finallyClause : w.Mirrors (finallyClause g) := by
  intro c c' hc
  refine (agree_advance hc).bind fun hstart hc => ?_
  exact (mirrors_block hg hc).bind fun hbody hc => agree_node _ hstart (.cons hbody .nil) hc

theorem mirrors_tryStatement : w.Mirrors (tryStatement g) := by
  intro c c' hc
  refine (agree_advance hc).bind fun {start start' _ _} hstart hc => ?_
  refine (mirrors_block hg hc).bind fun {body body' _ _} hbody hc => ?_
  refine Agree.bind (R := List.Forall₂ w.SameTree) ?_ fun {catches catches' _ _} hcatches hc => ?_
  · refine agree_iterate (R := List.Forall₂ w.SameTree) .nil hc fun hcatches hc => ?_
    refine .bind_sees hc fun found _ => ?_
    split
    · exact (mirrors_catchClause hg hc).bind fun hclause hc =>
        agree_pure (.inl (.cons hclause hcatches)) hc
    · exact agree_pure (.inr (List.rel_reverse hcatches)) hc
  have hrest {clauses clauses' : List Concrete}
      (hclauses : List.Forall₂ w.SameTree clauses clauses') {c c' : Cursor}
      (hc : w.SameCursor c c') :
      w.Agree w.SameTree c c'
        (do
          if clauses.isEmpty then reportExpected .catchKeyword
          node .tryKeyword start (body :: clauses))
        (do
          if clauses'.isEmpty then reportExpected .catchKeyword
          node .tryKeyword start' (body' :: clauses')) := by
    cases hclauses with
    | nil => exact (agree_reportExpected _ hc).bind fun _ hc =>
        agree_node _ hstart (.cons hbody .nil) hc
    | cons hclause hmore => exact agree_node _ hstart (.cons hbody (.cons hclause hmore)) hc
  refine .bind_sees hc fun found _ => ?_
  split
  · exact (mirrors_finallyClause hg hc).bind fun hlast hc =>
      hrest (List.rel_append hcatches (.cons hlast .nil)) hc
  · exact hrest (List.rel_append hcatches .nil) hc

theorem agree_defaultXmlNamespace (hpos : c.pos + 1 < w.size) (hc : w.SameCursor c c') :
    w.Agree w.SameTree c c' (defaultXmlNamespace g) (defaultXmlNamespace g) := by
  refine .bind_index hc fun hstart => ?_
  refine .bind_leaf _ (Nat.lt_of_succ_lt hpos) hc fun hdefault hc => ?_
  refine .bind_leaf _ hpos hc fun hxml hc => ?_
  refine (agree_requiredLeaf .namespaceKeyword nofun hc).bind fun hword hc => ?_
  refine (agree_requiredLeaf .equals nofun hc).bind fun hequals hc => ?_
  refine (mirrors_expression hg false hc).bind fun hvalue hc => ?_
  refine (agree_endStatement hc).bind fun _ hc => ?_
  have hparts := List.rel_append (List.rel_append
    (List.Forall₂.cons hdefault (.cons hxml hword)) hequals) (.cons hvalue .nil)
  exact agree_node _ hstart hparts hc

theorem agree_labelledStatement (hpos : c.pos < w.size) (hc : w.SameCursor c c') :
    w.Agree w.SameTree c c' (labelledStatement g) (labelledStatement g) := by
  refine .bind_index hc fun hstart => ?_
  refine .bind_leaf _ hpos hc fun hlabel hc => ?_
  refine (agree_discard (agree_advance hc)).bind fun _ hc => ?_
  refine (hg.statement hc).bind fun hbody hc => ?_
  exact agree_node _ hstart (.cons hlabel (.cons hbody .nil)) hc

theorem mirrors_expressionStatement : w.Mirrors (expressionStatement g) := by
  intro c c' hc
  refine (mirrors_expression hg false hc).bind fun hvalue hc => ?_
  rw [hvalue.isEmpty_eq]
  split
  · exact agree_pure hvalue hc
  · exact (agree_endStatement hc).bind fun _ hc => agree_pure hvalue hc

theorem mirrors_statement : w.Mirrors (statement g) := by
  intro c c' hc
  refine agree_nested (fun {c c'} hc => ?_) hc
  refine .bind_current hc fun k hk => ?_
  split
  · exact mirrors_block hg hc
  · exact agree_emptyStatement (Input.sees_of_kindAt hk nofun).lt_size hc
  · exact mirrors_variableStatement hg hc
  · exact mirrors_constStatement hg hc
  · exact mirrors_function hg true hc
  · exact mirrors_ifStatement hg hc
  · exact mirrors_doStatement hg hc
  · exact mirrors_whileStatement hg hc
  · exact mirrors_forStatement hg hc
  · exact mirrors_jumpStatement hc
  · exact mirrors_jumpStatement hc
  · exact mirrors_returnStatement hg hc
  · exact mirrors_throwStatement hg hc
  · exact mirrors_withStatement hg hc
  · exact mirrors_switchStatement hg hc
  · exact mirrors_tryStatement hg hc
  · refine .bind_peek hc fun next hnext => ?_
    split
    · rename_i hwords
      rw [Bool.and_eq_true, beq_iff_eq, beq_iff_eq] at hwords
      have hxml := hnext.trans hwords.2
      exact agree_defaultXmlNamespace hg (Input.sees_of_kindAt hxml nofun).lt_size hc
    · refine .bind_peek hc fun next _ => ?_
      split
      · rename_i hlabel
        refine agree_labelledStatement hg (Input.sees_of_kindAt hk ?_).lt_size hc
        rintro rfl
        cases hlabel
      · exact mirrors_expressionStatement hg hc

end

/-! Whole scripts. -/

theorem within_mirrored (w : Twins) (n : Nat) : (Grammar.within n).Mirrored w := by
  induction n with
  | zero =>
    exact ⟨fun _ => .exhaustedLeft, fun _ => fun _ => .exhaustedLeft,
      fun _ _ => fun _ => .exhaustedLeft, fun _ => .exhaustedLeft, fun _ => fun _ => .exhaustedLeft⟩
  | succ n ih =>
    exact ⟨mirrors_statement ih, mirrors_assignment ih, mirrors_binary ih, mirrors_unary ih,
      mirrors_member ih⟩

theorem mirrors_program : w.Mirrors Production.program := by
  intro c c' hc
  have hstops : w.Tests (pure false) := agree_pure rfl
  refine .bind_index hc fun hstart => .bind_read ?_
  rw [w.limit_eq]
  refine (agree_statements (w.within_mirrored _) hstops hc).bind fun hts hc => ?_
  exact agree_node _ hstart hts hc

end Twins

open Production

theorem settles_program {input : Input} (hcount : input.significant.size ≤ input.count)
    (c : Cursor) : Settles Production.program input c fun _ _ => True := by
  unfold Production.program
  apply Settles.bind_index
  apply Settles.bind_read
  apply (settles_statements hcount (n := callAllowance input.limit) _ c).bind
  · intro _ _ _
    trivial
  · unfold callAllowance
    omega

/-- Hidden tokens do not matter to the grammar. -/
theorem program_ignores_hidden {tokens tokens' : Array Token}
    (h : (tokens'.toList.filter (!·.isHidden)).map Token.content =
      (tokens.toList.filter (!·.isHidden)).map Token.content)
    (lines lines' : LineMap) (limit : Nat) :
    (Twins.ofTokens h lines lines' limit).SameOutcome
      (Cursor.initial.program (.ofTokens tokens lines limit))
      (Cursor.initial.program (.ofTokens tokens' lines' limit)) := by
  have hstart : (Twins.ofTokens h lines lines' limit).SameCursor .initial .initial :=
    ⟨rfl, rfl, Nat.zero_le _, rfl⟩
  have hagree := Twins.mirrors_program hstart
  have hleft := settles_program (Input.significant_size_le tokens lines limit) .initial
  have hright := settles_program (Input.significant_size_le tokens' lines' limit) .initial
  unfold Twins.Agree at hagree
  unfold Cursor.program
  change Twins.SameResult _ _ (Production.program (.ofTokens tokens lines limit) .initial)
    (Production.program (.ofTokens tokens' lines' limit) .initial) at hagree
  unfold Settles at hleft hright
  generalize Production.program (.ofTokens tokens lines limit) .initial = x at *
  generalize Production.program (.ofTokens tokens' lines' limit) .initial = y at *
  cases hagree with
  | found ht hc => exact .read ht hc.reports_eq
  | tooDeep hp hc => exact .tooDeep hp hc.reports_eq
  | exhaustedLeft => exact absurd rfl hleft
  | exhaustedRight => exact absurd rfl hright

/-- An unclosed parenthesis is reported alike, whatever blank space and comments are around it. -/
theorem program_ignores_hidden_paren :
    let opening (column index : Nat) : Token := ⟨.openParen, "(", 1, column, index, false, false⟩
    let name (column index : Nat) : Token := ⟨.identifier, "a", 1, column, index, false, false⟩
    let tokens := #[opening 0 0, name 1 1]
    let tokens' := #[⟨.whiteSpace, " ", 1, 0, 0, false, false⟩, opening 1 1,
      ⟨.multiLineComment, "/**/", 1, 2, 2, false, false⟩, name 6 3]
    ∃ h : (tokens'.toList.filter (!·.isHidden)).map Token.content =
        (tokens.toList.filter (!·.isHidden)).map Token.content,
      (Twins.ofTokens h (.ofText "(a") (.ofText " (/**/a") 3).SameOutcome
        (Cursor.initial.program (.ofTokens tokens (.ofText "(a") 3))
        (Cursor.initial.program (.ofTokens tokens' (.ofText " (/**/a") 3)) := by
  intro opening name tokens tokens'
  have h : (tokens'.toList.filter (!·.isHidden)).map Token.content =
      (tokens.toList.filter (!·.isHidden)).map Token.content := rfl
  exact ⟨h, program_ignores_hidden h (.ofText "(a") (.ofText " (/**/a") 3⟩

end ScriptTree
