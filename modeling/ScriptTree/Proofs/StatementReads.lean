import ScriptTree.Production.Program
import ScriptTree.Proofs.ExpressionReads

/-! What the productions of statements build, and with them the whole grammar. -/
namespace ScriptTree
namespace Production
variable {input : Input} {c c' : Cursor} {t : Concrete} {ts : List Concrete}

theorem reads_jumpStatement {k : Kind} (h : Runs jumpStatement input c t c')
    (hsees : input.Sees c.pos k) (hk : k = .breakKeyword ∨ k = .continueKeyword) :
    Read input .statement c c' [t] := by
  unfold jumpStatement at h
  replace h := ((h.bind_current.bind_advance hsees.lt_size).bind_current).bind_afterLineBreak
  rw [Input.kindAt_eq_of_sees hsees] at h
  dsimp only at h
  split at h
  · rename_i hlabel
    rw [Bool.and_eq_true, Bool.not_eq_true'] at hlabel
    obtain ⟨hname, hline⟩ := hlabel
    have hname' := sees_of_test Kind.isIdentifier hname rfl
    obtain ⟨label, c₁, hleaf, h⟩ := h.bind
    obtain ⟨e, he, hd⟩ := read_leaf (r := .identifier) hleaf hname' (if_pos hname)
    obtain ⟨_, c₂, hend, h⟩ := h.bind_pure.bind
    obtain ⟨e', he', hend⟩ := hend.endStatement
    obtain ⟨rfl, rfl⟩ := h.node
    rw [Cursor.next_problems] at he
    exact ⟨_, by omega, .jumpStatement hsees hk (.something hd) (fun _ => hline) hend⟩
  · obtain ⟨_, c₂, hend, h⟩ := h.bind_pure.bind
    obtain ⟨e', he', hend⟩ := hend.endStatement
    obtain ⟨rfl, rfl⟩ := h.node
    exact ⟨_, by simpa using he', .jumpStatement hsees hk .nothing (by simp) hend⟩

theorem reads_emptyStatement (h : Runs emptyStatement input c t c')
    (hsees : input.Sees c.pos .semicolon) : Read input .statement c c' [t] := by
  unfold emptyStatement at h
  obtain ⟨rfl, rfl⟩ := (h.bind_advance hsees.lt_size).pure
  exact ⟨0, rfl, .emptyStatement hsees⟩

theorem reads_requiredLeaf {k : Kind} (h : Runs (requiredLeaf k) input c ts c')
    (hk : k ≠ .endOfFile) : Read input (.required k) c c' ts := by
  unfold requiredLeaf at h
  obtain ⟨hsees, h⟩ | ⟨-, h⟩ := h.bind_sees hk
  · obtain ⟨u, c₁, hu, h⟩ := Runs.bind h
    obtain ⟨rfl, rfl⟩ := hu.leaf hsees.lt_size
    obtain ⟨rfl, rfl⟩ := h.pure
    exact ⟨0, rfl, .present hsees⟩
  · obtain ⟨_, c₁, hreport, h⟩ := Runs.bind h
    obtain ⟨hplace, hsize⟩ := hreport.reportExpected
    obtain ⟨rfl, rfl⟩ := h.pure
    exact ⟨1, hsize, hplace.symm ▸ .lacking⟩

theorem atClauseEnd_cursor {found : Bool} (h : Runs atClauseEnd input c found c') : c' = c := by
  unfold atClauseEnd at h
  replace h := h.bind_current
  split at h <;> cases h <;> rfl

section
variable {g : Grammar} (hg : g.Sound input)
include hg

/-- A declaring keyword and its declarators. -/
theorem reads_declarations {noIn : Bool} {k : Kind} (h : Runs (declarations g noIn) input c t c')
    (hsees : input.Sees c.pos k) :
    ∃ ts, t = input.nodeAt c'.pos k (input.indexAt c.pos) ts ∧
      Read input (.separated .declarator) c.next c' ts := by
  unfold declarations at h
  replace h := h.bind_current.bind_advance hsees.lt_size
  rw [Input.kindAt_eq_of_sees hsees] at h
  obtain ⟨ts, c₁, hts, h⟩ := h.bind
  obtain ⟨rfl, rfl⟩ := h.node
  refine ⟨ts, rfl, reads_separated ?_ hts⟩
  intro c t c' h
  obtain ⟨name, c₁, hname, h⟩ := h.bind
  obtain ⟨e, he, hname⟩ := reads_identifier hname
  obtain ⟨hequals, h⟩ | ⟨-, h⟩ := h.bind_eat nofun
  · obtain ⟨value, c₂, hvalue, h⟩ := Runs.bind h
    obtain ⟨e', he', hvalue⟩ := hg.assignment hvalue
    obtain ⟨rfl, rfl⟩ := h.node
    rw [Cursor.next_problems] at he'
    exact ⟨_, by omega, .initialized hname hequals hvalue⟩
  · obtain ⟨rfl, rfl⟩ := Runs.pure h
    exact ⟨e, he, .declared hname⟩

theorem reads_variables {noIn : Bool} (h : Runs (declarations g noIn) input c t c')
    (hsees : input.Sees c.pos .varKeyword) : Read input .variables c c' [t] := by
  obtain ⟨ts, rfl, e, he, hd⟩ := reads_declarations hg h hsees
  exact ⟨e, he, .declaration hsees hd⟩

theorem reads_variableStatement (h : Runs (variableStatement g) input c t c')
    (hsees : input.Sees c.pos .varKeyword) : Read input .statement c c' [t] := by
  unfold variableStatement at h
  obtain ⟨declared, c₁, hdeclared, h⟩ := h.bind
  obtain ⟨e, he, hd⟩ := reads_variables hg hdeclared hsees
  obtain ⟨_, c₂, hend, h⟩ := h.bind
  obtain ⟨e', he', hend⟩ := hend.endStatement
  obtain ⟨rfl, rfl⟩ := h.pure
  exact ⟨_, by omega, .variableStatement hd hend⟩

/-- The statement takes in its semicolon, which the node of its declarations lacks. -/
theorem reads_constStatement (h : Runs (constStatement g) input c t c')
    (hsees : input.Sees c.pos .constKeyword) : Read input .statement c c' [t] := by
  unfold constStatement at h
  obtain ⟨declared, c₁, hdeclared, h⟩ := h.bind_index.bind
  obtain ⟨ts, rfl, e, he, hd⟩ := reads_declarations hg hdeclared hsees
  obtain ⟨_, c₂, hend, h⟩ := h.bind
  obtain ⟨e', he', hend⟩ := hend.endStatement
  obtain ⟨rfl, rfl⟩ := Runs.pure h.bind_get.bind_read
  rw [Cursor.next_problems] at he
  exact ⟨_, by omega, .constStatement hsees hd hend⟩

theorem reads_condition (h : Runs (condition g) input c t c') : Read input .condition c c' [t] := by
  unfold condition at h
  obtain ⟨_, c₁, hopen, h⟩ := h.bind
  obtain ⟨e, he, hopen⟩ := hopen.expect nofun
  obtain ⟨inside, c₂, hinside, h⟩ := h.bind
  obtain ⟨e', he', hinside⟩ := reads_expression hg hinside
  obtain ⟨_, c₃, hclose, h⟩ := h.bind
  obtain ⟨e'', he'', hclose⟩ := hclose.expect nofun
  obtain ⟨rfl, rfl⟩ := h.pure
  exact ⟨_, by omega, .condition hopen hinside hclose⟩

theorem reads_ifStatement (h : Runs (ifStatement g) input c t c')
    (hsees : input.Sees c.pos .ifKeyword) : Read input .statement c c' [t] := by
  unfold ifStatement at h
  obtain ⟨test, c₁, htest, h⟩ := (h.bind_advance hsees.lt_size).bind
  obtain ⟨e₁, he₁, htest⟩ := reads_condition hg htest
  rw [Cursor.next_problems] at he₁
  obtain ⟨u, c₂, hu, h⟩ := h.bind
  obtain ⟨e₂, he₂, hu⟩ := hg.statement hu
  obtain ⟨helse, h⟩ | ⟨-, h⟩ := h.bind_eat nofun
  · obtain ⟨v, c₃, hv, h⟩ := Runs.bind h
    obtain ⟨e₃, he₃, hv⟩ := hg.statement hv
    obtain ⟨rfl, rfl⟩ := h.bind_pure.node
    rw [Cursor.next_problems] at he₃
    exact ⟨_, by omega, .ifStatement hsees htest hu (.orElse helse hv)⟩
  · obtain ⟨rfl, rfl⟩ := (Runs.bind_pure h).node
    exact ⟨_, by omega, .ifStatement hsees htest hu .noElse⟩

theorem reads_doStatement (h : Runs (doStatement g) input c t c')
    (hsees : input.Sees c.pos .doKeyword) : Read input .statement c c' [t] := by
  unfold doStatement at h
  obtain ⟨body, c₁, hbody, h⟩ := (h.bind_advance hsees.lt_size).bind
  obtain ⟨e₁, he₁, hbody⟩ := hg.statement hbody
  rw [Cursor.next_problems] at he₁
  obtain ⟨_, c₂, hwhile, h⟩ := h.bind
  obtain ⟨e₂, he₂, hwhile⟩ := hwhile.expect nofun
  obtain ⟨test, c₃, htest, h⟩ := h.bind
  obtain ⟨e₃, he₃, htest⟩ := reads_condition hg htest
  obtain ⟨_, c₄, heat, h⟩ := h.bind
  obtain ⟨hsemicolon, heat⟩ | ⟨-, heat⟩ := Runs.bind_eat heat nofun
  · obtain ⟨-, rfl⟩ := heat.pure
    obtain ⟨rfl, rfl⟩ := h.node
    exact ⟨_, by rw [Cursor.next_problems]; omega,
      .doStatement hsees hbody hwhile htest (.present hsemicolon)⟩
  · obtain ⟨-, rfl⟩ := heat.pure
    obtain ⟨rfl, rfl⟩ := h.node
    exact ⟨_, by omega, .doStatement hsees hbody hwhile htest .absent⟩

theorem reads_whileStatement (h : Runs (whileStatement g) input c t c')
    (hsees : input.Sees c.pos .whileKeyword) : Read input .statement c c' [t] := by
  unfold whileStatement at h
  obtain ⟨test, c₁, htest, h⟩ := (h.bind_advance hsees.lt_size).bind
  obtain ⟨e, he, htest⟩ := reads_condition hg htest
  obtain ⟨body, c₂, hbody, h⟩ := h.bind
  obtain ⟨e', he', hbody⟩ := hg.statement hbody
  obtain ⟨rfl, rfl⟩ := h.node
  rw [Cursor.next_problems] at he
  exact ⟨_, by omega, .whileStatement hsees htest hbody⟩

theorem reads_withStatement (h : Runs (withStatement g) input c t c')
    (hsees : input.Sees c.pos .withKeyword) : Read input .statement c c' [t] := by
  unfold withStatement at h
  obtain ⟨object, c₁, hobject, h⟩ := (h.bind_advance hsees.lt_size).bind
  obtain ⟨e, he, hobject⟩ := reads_condition hg hobject
  obtain ⟨body, c₂, hbody, h⟩ := h.bind
  obtain ⟨e', he', hbody⟩ := hg.statement hbody
  obtain ⟨rfl, rfl⟩ := h.node
  rw [Cursor.next_problems] at he
  exact ⟨_, by omega, .withStatement hsees hobject hbody⟩

theorem reads_optionalClause {before : Kind} (h : Runs (optionalClause g before) input c t c')
    (hbefore : before ≠ .endOfFile) : Read input .clause c c' [t] := by
  unfold optionalClause at h
  obtain ⟨-, h⟩ | ⟨-, h⟩ := h.bind_sees hbefore
  · obtain ⟨rfl, rfl⟩ := (Runs.bind_index h).pure
    exact ⟨0, rfl, .noClause⟩
  · obtain ⟨u, c₁, hu, h⟩ := Runs.bind h
    obtain ⟨e, he, hu⟩ := reads_expression hg hu
    obtain ⟨rfl, rfl⟩ := h.pure
    exact ⟨e, he, .clauseOf (.initialOf hu)⟩

/-- The head of a loop with three clauses, after the first of them. -/
theorem reads_forSteps {u : Concrete} {c₀ : Cursor} (hu : Read input .clause c₀ c [u])
    (h : Runs (do
      expect .semicolon
      let test ← optionalClause g .semicolon
      expect .semicolon
      let step ← optionalClause g .closeParen
      node .forStep (input.indexAt c₀.pos) [u, test, step]) input c t c') :
    Read input (.forHead false) c₀ c' [t] := by
  obtain ⟨e₁, he₁, hu⟩ := hu
  obtain ⟨_, c₂, hsemicolon, h⟩ := h.bind
  obtain ⟨e₂, he₂, hsemicolon⟩ := hsemicolon.expect nofun
  obtain ⟨test, c₃, htest, h⟩ := h.bind
  obtain ⟨e₃, he₃, htest⟩ := reads_optionalClause hg htest nofun
  obtain ⟨_, c₄, hsemicolon', h⟩ := h.bind
  obtain ⟨e₄, he₄, hsemicolon'⟩ := hsemicolon'.expect nofun
  obtain ⟨step, c₅, hstep, h⟩ := h.bind
  obtain ⟨e₅, he₅, hstep⟩ := reads_optionalClause hg hstep nofun
  obtain ⟨rfl, rfl⟩ := h.node
  exact ⟨_, by omega, .steps hu hsemicolon htest hsemicolon' hstep⟩

theorem reads_forHead (h : Runs (forHead g) input c t c') :
    ∃ iterates, Read input (.forHead iterates) c c' [t] := by
  unfold forHead at h
  obtain ⟨-, h⟩ | ⟨-, h⟩ := h.bind_index.bind_sees nofun
  · exact ⟨false, reads_forSteps hg ⟨0, rfl, .noClause⟩ h⟩
  · obtain ⟨first, c₁, ⟨e, he, hfirst⟩, h⟩ : ∃ first c₁, Read input .initial c c₁ [first] ∧
        Runs (do
          if ← sees .inKeyword then forIteration g (input.indexAt c.pos) first
          else forSteps g (input.indexAt c.pos) (some first)) input c₁ t c' := by
      obtain ⟨hsees, h⟩ | ⟨-, h⟩ := Runs.bind_sees h nofun
      · obtain ⟨first, c₁, hfirst, h⟩ := Runs.bind h
        obtain ⟨e, he, hd⟩ := reads_variables hg hfirst hsees
        exact ⟨first, c₁, ⟨e, he, .initialVariables hd⟩, h⟩
      · obtain ⟨first, c₁, hfirst, h⟩ := Runs.bind h
        obtain ⟨e, he, hd⟩ := reads_expression hg hfirst
        exact ⟨first, c₁, ⟨e, he, .initialOf hd⟩, h⟩
    obtain ⟨hin, h⟩ | ⟨-, h⟩ := h.bind_sees nofun
    · rw [if_pos rfl, forIteration] at h
      obtain ⟨object, c₂, hobject, h⟩ := (h.bind_skip hin.lt_size).bind
      obtain ⟨e', he', hobject⟩ := reads_expression hg hobject
      obtain ⟨rfl, rfl⟩ := h.node
      rw [Cursor.next_problems] at he'
      exact ⟨true, _, by omega, .iterate hfirst hin hobject⟩
    · exact ⟨false, reads_forSteps hg ⟨e, he, .clauseOf hfirst⟩ h⟩

theorem reads_forStatement (h : Runs (forStatement g) input c t c')
    (hsees : input.Sees c.pos .forKeyword) : Read input .statement c c' [t] := by
  unfold forStatement at h
  obtain ⟨each, c₁, heat, h⟩ := (h.bind_advance hsees.lt_size).bind
  obtain ⟨heach, hpos₁, hproblems₁⟩ : (each = true → input.Sees (c.pos + 1) .eachKeyword) ∧
      c₁.pos = (if each then c.pos + 2 else c.pos + 1) ∧
      c₁.problems.size = c.problems.size := by
    unfold eat at heat
    obtain ⟨hfound, heat⟩ | ⟨-, heat⟩ := heat.bind_sees nofun
    · obtain ⟨rfl, rfl⟩ := (Runs.bind_skip heat hfound.lt_size).pure
      exact ⟨fun _ => hfound, rfl, rfl⟩
    · obtain ⟨rfl, rfl⟩ := Runs.pure heat
      exact ⟨fun h => absurd h Bool.false_ne_true, rfl, rfl⟩
  obtain ⟨_, c₂, hopen, h⟩ := h.bind
  obtain ⟨e₁, he₁, hopen⟩ := hopen.expect nofun
  obtain ⟨head, c₃, hhead, h⟩ := (h.bind_token?).bind
  obtain ⟨iterates, e₂, he₂, hhead⟩ := reads_forHead hg hhead
  obtain ⟨_, c₄, hclose, h⟩ := h.bind
  obtain ⟨e₃, he₃, hclose⟩ := hclose.expect nofun
  obtain ⟨body, c₅, hbody, h⟩ := h.bind
  obtain ⟨e₄, he₄, hbody⟩ := hg.statement hbody
  rw [hhead.forHead_kind] at h
  rw [hpos₁] at hopen
  have hstatement := Derives.forStatement hsees heach hopen hhead hclose hbody
  cases each with
  | false =>
    obtain ⟨rfl, rfl⟩ := Runs.node h
    exact ⟨_, by simp; omega, hstatement⟩
  | true =>
    cases iterates with
    | true =>
      obtain ⟨rfl, rfl⟩ := Runs.node h
      exact ⟨_, by simp; omega, hstatement⟩
    | false =>
      obtain ⟨_, c₆, hreport, h⟩ := Runs.bind h
      obtain ⟨hplace, hsize⟩ := hreport.reportAt
      obtain ⟨rfl, rfl⟩ := h.node
      rw [← hplace] at hstatement
      exact ⟨_, by simp; omega, hstatement⟩

theorem reads_returnStatement (h : Runs (returnStatement g) input c t c')
    (hsees : input.Sees c.pos .returnKeyword) : Read input .statement c c' [t] := by
  unfold returnStatement at h
  replace h := (h.bind_advance hsees.lt_size).bind_current.bind_afterLineBreak
  dsimp only at h
  split at h
  · obtain ⟨_, c₂, hend, h⟩ := h.bind_pure.bind
    obtain ⟨e', he', hend⟩ := hend.endStatement
    obtain ⟨rfl, rfl⟩ := h.node
    exact ⟨_, by simpa using he', .returnStatement hsees .nothing (by simp) hend⟩
  · rename_i hbare
    simp only [Bool.or_eq_true, not_or, Bool.not_eq_true] at hbare
    obtain ⟨value, c₁, hvalue, h⟩ := h.bind
    obtain ⟨e, he, hvalue⟩ := reads_expression hg hvalue
    obtain ⟨_, c₂, hend, h⟩ := h.bind_pure.bind
    obtain ⟨e', he', hend⟩ := hend.endStatement
    obtain ⟨rfl, rfl⟩ := h.node
    rw [Cursor.next_problems] at he
    exact ⟨_, by omega, .returnStatement hsees (.something hvalue) (fun _ => hbare.2) hend⟩

theorem reads_throwStatement (h : Runs (throwStatement g) input c t c')
    (hsees : input.Sees c.pos .throwKeyword) : Read input .statement c c' [t] := by
  unfold throwStatement at h
  obtain ⟨value, c₁, hvalue, h⟩ := (h.bind_advance hsees.lt_size).bind
  obtain ⟨e, he, hvalue⟩ := reads_expression hg hvalue
  obtain ⟨_, c₂, hend, h⟩ := h.bind
  obtain ⟨e', he', hend⟩ := hend.endStatement
  obtain ⟨rfl, rfl⟩ := h.node
  rw [Cursor.next_problems] at he
  exact ⟨_, by omega, .throwStatement hsees hvalue hend⟩

theorem reads_caseClause (h : Runs (caseClause g) input c t c')
    (hsees : input.Sees c.pos .caseKeyword) : Read input .switchClause c c' [t] := by
  unfold caseClause at h
  obtain ⟨test, c₁, htest, h⟩ := (h.bind_advance hsees.lt_size).bind
  obtain ⟨e, he, htest⟩ := reads_expression hg htest
  obtain ⟨_, c₂, hcolon, h⟩ := h.bind
  obtain ⟨e', he', hcolon⟩ := hcolon.expect nofun
  obtain ⟨body, c₃, hbody, h⟩ := h.bind
  obtain ⟨e'', he'', hbody⟩ := (reads_statements hg (fun _ _ _ => atClauseEnd_cursor) hbody).1
  obtain ⟨rfl, rfl⟩ := h.node
  rw [Cursor.next_problems] at he
  exact ⟨_, by omega, .caseClause hsees htest hcolon hbody⟩

theorem reads_defaultClause (h : Runs (defaultClause g) input c t c')
    (hsees : input.Sees c.pos .defaultKeyword) : Read input .switchClause c c' [t] := by
  unfold defaultClause at h
  obtain ⟨_, c₁, hcolon, h⟩ := (h.bind_advance hsees.lt_size).bind
  obtain ⟨e, he, hcolon⟩ := hcolon.expect nofun
  obtain ⟨body, c₂, hbody, h⟩ := h.bind
  obtain ⟨e', he', hbody⟩ := (reads_statements hg (fun _ _ _ => atClauseEnd_cursor) hbody).1
  obtain ⟨rfl, rfl⟩ := h.node
  rw [Cursor.next_problems] at he
  exact ⟨_, by omega, .defaultClause hsees hcolon hbody⟩

theorem reads_switchStatement (h : Runs (switchStatement g) input c t c')
    (hsees : input.Sees c.pos .switchKeyword) : Read input .statement c c' [t] := by
  unfold switchStatement at h
  obtain ⟨subject, c₁, hsubject, h⟩ := (h.bind_advance hsees.lt_size).bind
  obtain ⟨e₁, he₁, hsubject⟩ := reads_condition hg hsubject
  rw [Cursor.next_problems] at he₁
  obtain ⟨_, c₂, hopen, h⟩ := h.bind
  obtain ⟨e₂, he₂, hopen⟩ := hopen.expect nofun
  obtain ⟨clauses, c₃, hclauses, h⟩ := h.bind
  have hloop := hclauses.iterate (I := Collects input .clauses) ?_
  · obtain ⟨e₃, he₃, hd⟩ := hloop.read
    obtain ⟨_, c₄, hclose, h⟩ := h.bind
    obtain ⟨e₄, he₄, hclose⟩ := hclose.expect nofun
    obtain ⟨rfl, rfl⟩ := h.node
    exact ⟨_, by omega, .switchStatement hsees hsubject hopen hd hclose⟩
  · intro done c x c' h
    obtain ⟨h, -⟩ | ⟨hpos, h⟩ := h.bind_atEnd_or fun _ _ h => h.sees_cursor
    · obtain ⟨rfl, rfl⟩ := h.pure
      exact collects_none .noMoreClauses
    · replace h := h.bind_current
      split at h
      · rename_i hkind
        obtain ⟨u, c₁, hu, h⟩ := h.bind
        obtain ⟨e, he, hd⟩ := reads_caseClause hg hu (sees_kindAt (by simpa using hkind) nofun)
        obtain ⟨rfl, rfl⟩ := h.pure
        rintro ts c' ⟨more, rfl, e', he', hd'⟩
        exact ⟨u :: more, by simp, _, by omega, .nextClause hd hd'⟩
      · obtain ⟨found, c₁, hfound, h⟩ := h.bind
        obtain rfl := atClauseEnd_cursor hfound
        split at h
        · rename_i hkind
          rw [Bool.and_eq_true, beq_iff_eq] at hkind
          obtain ⟨u, c₁, hu, h⟩ := h.bind
          obtain ⟨e, he, hd⟩ := reads_defaultClause hg hu (sees_kindAt hkind.1 nofun)
          obtain ⟨rfl, rfl⟩ := h.pure
          rintro ts c' ⟨more, rfl, e', he', hd'⟩
          exact ⟨u :: more, by simp, _, by omega, .nextClause hd hd'⟩
        · obtain ⟨_, c₂, hreport, h⟩ := h.bind
          obtain ⟨hplace, hsize⟩ := hreport.reportUnexpected
          obtain ⟨_, c₃, hskip, h⟩ := h.bind
          have hskips : Skips input c₂ c₃ :=
            skips_loop atClauseEnd (fun _ _ _ => atClauseEnd_cursor) hskip
          obtain ⟨hle, hbound, hsize'⟩ := hskips (by omega)
          obtain ⟨rfl, rfl⟩ := h.pure
          rintro ts c' ⟨more, rfl, e', he', hd'⟩
          rw [hplace] at hle
          exact ⟨more, rfl, _, by omega, .strayTokens hle hbound hd'⟩

theorem reads_catchClause (h : Runs (catchClause g) input c t c')
    (hsees : input.Sees c.pos .catchKeyword) : Read input .catchClause c c' [t] := by
  unfold catchClause at h
  obtain ⟨_, c₁, hopen, h⟩ := (h.bind_advance hsees.lt_size).bind
  obtain ⟨e₁, he₁, hopen⟩ := hopen.expect nofun
  rw [Cursor.next_problems] at he₁
  obtain ⟨x, c₂, hx, h⟩ := h.bind
  obtain ⟨e₂, he₂, hx⟩ := reads_identifier hx
  obtain ⟨fs, c₃, ⟨e₃, he₃, hfs⟩, h⟩ : ∃ fs c₃,
      Read input (.optional .exceptionFilter) c₂ c₃ fs ∧ Runs (do
        expect .closeParen
        let body ← block g
        node .catchKeyword (input.indexAt c.pos) (x :: fs ++ [body])) input c₃ t c' := by
    obtain ⟨hif, h⟩ | ⟨-, h⟩ := h.bind_sees nofun
    · obtain ⟨f, c₃, hf, h⟩ := Runs.bind h
      unfold catchClause.exceptionFilter at hf
      obtain ⟨test, c₄, htest, hf⟩ := (hf.bind_advance hif.lt_size).bind
      obtain ⟨e, he, htest⟩ := reads_expression hg htest
      obtain ⟨rfl, rfl⟩ := hf.node
      exact ⟨_, c₄, ⟨e, he, .something (.filter hif htest)⟩, h.bind_pure⟩
    · exact ⟨[], c₂, ⟨0, rfl, .nothing⟩, Runs.bind_pure h⟩
  obtain ⟨_, c₄, hclose, h⟩ := h.bind
  obtain ⟨e₄, he₄, hclose⟩ := hclose.expect nofun
  obtain ⟨body, c₅, hbody, h⟩ := h.bind
  obtain ⟨e₅, he₅, hbody⟩ := reads_block hg hbody
  obtain ⟨rfl, rfl⟩ := h.node
  exact ⟨_, by omega, .catchClause hsees hopen hx hfs hclose hbody⟩

theorem reads_finallyClause (h : Runs (finallyClause g) input c t c')
    (hsees : input.Sees c.pos .finallyKeyword) : Read input .finallyClause c c' [t] := by
  unfold finallyClause at h
  obtain ⟨body, c₁, hbody, h⟩ := (h.bind_advance hsees.lt_size).bind
  obtain ⟨e, he, hbody⟩ := reads_block hg hbody
  obtain ⟨rfl, rfl⟩ := h.node
  exact ⟨e, he, .finalClause hsees hbody⟩

theorem reads_tryStatement (h : Runs (tryStatement g) input c t c')
    (hsees : input.Sees c.pos .tryKeyword) : Read input .statement c c' [t] := by
  unfold tryStatement at h
  obtain ⟨body, c₁, hbody, h⟩ := (h.bind_advance hsees.lt_size).bind
  obtain ⟨e₁, he₁, hbody⟩ := reads_block hg hbody
  rw [Cursor.next_problems] at he₁
  obtain ⟨catches, c₂, hcatches, h⟩ := h.bind
  have hloop := hcatches.iterate (I := Collects input .catches) ?_
  · obtain ⟨e₂, he₂, hcatches⟩ := hloop.read
    obtain ⟨us, c₃, ⟨e₃, he₃, hus⟩, h⟩ : ∃ us c₃,
        Read input (.optional .finallyClause) c₂ c₃ us ∧ Runs (do
          if (catches ++ us).isEmpty then reportExpected .catchKeyword
          node .tryKeyword (input.indexAt c.pos) (body :: (catches ++ us))) input c₃ t c' := by
      obtain ⟨hfinally, h⟩ | ⟨-, h⟩ := h.bind_sees nofun
      · obtain ⟨u, c₃, hu, h⟩ := Runs.bind h
        obtain ⟨e, he, hu⟩ := reads_finallyClause hg hu hfinally
        exact ⟨[u], c₃, ⟨e, he, .something hu⟩, h.bind_pure⟩
      · exact ⟨[], c₂, ⟨0, rfl, .nothing⟩, Runs.bind_pure h⟩
    have hstatement := Derives.tryStatement hsees hbody hcatches hus
    split at h
    · rename_i hempty
      obtain ⟨_, c₄, hreport, h⟩ := h.bind
      obtain ⟨hplace, hsize⟩ := hreport.reportExpected
      obtain ⟨rfl, rfl⟩ := h.node
      rw [← hplace] at hstatement
      exact ⟨_, by rw [if_pos hempty]; omega, hstatement⟩
    · rename_i hsome
      obtain ⟨rfl, rfl⟩ := Runs.node h
      exact ⟨_, by rw [if_neg hsome]; omega, hstatement⟩
  · intro done c x c' h
    obtain ⟨hcatch, h⟩ | ⟨-, h⟩ := h.bind_sees nofun
    · obtain ⟨u, c₁, hu, h⟩ := Runs.bind h
      obtain ⟨e, he, hd⟩ := reads_catchClause hg hu hcatch
      obtain ⟨rfl, rfl⟩ := h.pure
      rintro ts c' ⟨more, rfl, e', he', hd'⟩
      exact ⟨u :: more, by simp, _, by omega, .nextCatch hd hd'⟩
    · obtain ⟨rfl, rfl⟩ := Runs.pure h
      exact collects_none .noMoreCatches

theorem reads_defaultXmlNamespace (h : Runs (defaultXmlNamespace g) input c t c')
    (hsees : input.Sees c.pos .defaultKeyword) (hxml : input.Sees (c.pos + 1) .xmlKeyword) :
    Read input .statement c c' [t] := by
  unfold defaultXmlNamespace at h
  obtain ⟨_, c₁, hdefault, h⟩ := h.bind_index.bind
  obtain ⟨rfl, rfl⟩ := hdefault.leaf hsees.lt_size
  obtain ⟨_, c₂, hleaf, h⟩ := h.bind
  obtain ⟨rfl, rfl⟩ := hleaf.leaf hxml.lt_size
  obtain ⟨ns, c₃, hns, h⟩ := h.bind
  obtain ⟨e₁, he₁, hns⟩ := reads_requiredLeaf hns nofun
  simp only [Cursor.next_problems] at he₁
  obtain ⟨es, c₄, hes, h⟩ := h.bind
  obtain ⟨e₂, he₂, hes⟩ := reads_requiredLeaf hes nofun
  obtain ⟨value, c₅, hvalue, h⟩ := h.bind
  obtain ⟨e₃, he₃, hvalue⟩ := reads_expression hg hvalue
  obtain ⟨_, c₆, hend, h⟩ := h.bind
  obtain ⟨e₄, he₄, hend⟩ := hend.endStatement
  obtain ⟨rfl, rfl⟩ := h.node
  exact ⟨_, by omega, .namespaceStatement hsees hxml hns hes hvalue hend⟩

theorem reads_labelledStatement (h : Runs (labelledStatement g) input c t c')
    (hname : (input.kindAt c.pos).isIdentifier = true) (hcolon : input.Sees (c.pos + 1) .colon) :
    Read input .statement c c' [t] := by
  unfold labelledStatement at h
  have hsees := sees_of_test Kind.isIdentifier hname rfl
  obtain ⟨label, c₁, hlabel, h⟩ := h.bind_index.bind
  obtain ⟨rfl, rfl⟩ := hlabel.leaf hsees.lt_size
  obtain ⟨body, c₂, hbody, h⟩ := (h.bind_skip hcolon.lt_size).bind
  obtain ⟨e, he, hbody⟩ := hg.statement hbody
  obtain ⟨rfl, rfl⟩ := h.node
  exact ⟨e, he, .labelledStatement hsees hname hcolon hbody⟩

theorem reads_expressionStatement (h : Runs (expressionStatement g) input c t c')
    (hfunction : ¬input.Sees c.pos .functionKeyword) : Read input .statement c c' [t] := by
  unfold expressionStatement at h
  obtain ⟨value, c₁, hvalue, h⟩ := h.bind
  obtain ⟨e, he, hvalue⟩ := reads_expression hg hvalue
  split at h
  · rename_i hempty
    obtain ⟨rfl, rfl⟩ := h.pure
    exact ⟨e, he, .nullStatement hvalue hempty⟩
  · rename_i hsome
    obtain ⟨_, c₂, hend, h⟩ := h.bind
    obtain ⟨e', he', hend⟩ := hend.endStatement
    obtain ⟨rfl, rfl⟩ := h.pure
    exact ⟨_, by omega,
      .expressionStatement hfunction hvalue (Bool.eq_false_iff.mpr hsome) hend⟩

theorem reads_statement (h : Runs (statement g) input c t c') :
    Read input .statement c c' [t] := by
  unfold statement at h
  refine reads_nested h ?_
  intro c c' h
  replace h := h.bind_current
  split at h
  · obtain ⟨e, he, hd⟩ := reads_block hg h
    exact ⟨e, he, .blockStatement hd⟩
  · rename_i hkind
    exact reads_emptyStatement h (sees_kindAt hkind nofun)
  · rename_i hkind
    exact reads_variableStatement hg h (sees_kindAt hkind nofun)
  · rename_i hkind
    exact reads_constStatement hg h (sees_kindAt hkind nofun)
  · rename_i hkind
    obtain ⟨e, he, hd⟩ := reads_function hg h (sees_kindAt hkind nofun)
    exact ⟨e, he, .functionStatement hd⟩
  · rename_i hkind
    exact reads_ifStatement hg h (sees_kindAt hkind nofun)
  · rename_i hkind
    exact reads_doStatement hg h (sees_kindAt hkind nofun)
  · rename_i hkind
    exact reads_whileStatement hg h (sees_kindAt hkind nofun)
  · rename_i hkind
    exact reads_forStatement hg h (sees_kindAt hkind nofun)
  · rename_i hkind
    exact reads_jumpStatement h (sees_kindAt hkind nofun) (.inl rfl)
  · rename_i hkind
    exact reads_jumpStatement h (sees_kindAt hkind nofun) (.inr rfl)
  · rename_i hkind
    exact reads_returnStatement hg h (sees_kindAt hkind nofun)
  · rename_i hkind
    exact reads_throwStatement hg h (sees_kindAt hkind nofun)
  · rename_i hkind
    exact reads_withStatement hg h (sees_kindAt hkind nofun)
  · rename_i hkind
    exact reads_switchStatement hg h (sees_kindAt hkind nofun)
  · rename_i hkind
    exact reads_tryStatement hg h (sees_kindAt hkind nofun)
  · rename_i hfunction _ _ _ _ _ _ _ _ _ _ _
    replace h := h.bind_peek
    split at h
    · rename_i hkinds
      rw [Bool.and_eq_true, beq_iff_eq, beq_iff_eq] at hkinds
      exact reads_defaultXmlNamespace hg h (sees_kindAt hkinds.1 nofun)
        (Input.sees_of_kindAt hkinds.2 (by decide))
    · replace h := h.bind_peek
      split at h
      · rename_i hkinds
        rw [Bool.and_eq_true, beq_iff_eq] at hkinds
        exact reads_labelledStatement hg h hkinds.1
          (Input.sees_of_kindAt hkinds.2 (by decide))
      · exact reads_expressionStatement hg h fun hsees => hfunction (Input.kindAt_eq_of_sees hsees)

end

end Production

/-- However many nested calls are allowed, the productions follow their rules. -/
theorem Grammar.within_sound (n : Nat) (input : Input) : (Grammar.within n).Sound input := by
  induction n with
  | zero =>
    constructor
    iterate 6
      intros
      exact absurd ‹Production.Runs _ _ _ _ _› Production.not_runs_throw
  | succ n ih =>
    exact ⟨Production.reads_statement ih, Production.reads_assignment ih,
      Production.reads_binary ih, Production.reads_unary ih, Production.reads_member ih,
      Production.ends_binary⟩

/-- A script is made of statements, and all tokens from the cursor on are read. -/
theorem Production.Runs.program {input : Input} {c c' : Cursor} {tree : Concrete}
    (h : Runs Production.program input c tree c') :
    input.significant.size ≤ c'.pos ∧
      ∃ ts, tree = input.nodeAt c'.pos .script (input.indexAt c.pos) ts ∧
        Read input .statements c c' ts := by
  unfold Production.program at h
  obtain ⟨ts, c₁, hts, h⟩ := h.bind_index.bind_read.bind
  obtain ⟨rfl, rfl⟩ := h.node
  obtain ⟨hread, hstop⟩ := Production.reads_statements (Grammar.within_sound _ _)
    (fun _ _ _ h => h.pure.2.symm) hts
  refine ⟨?_, ts, rfl, hread⟩
  apply Nat.le_of_not_lt
  intro hlt
  exact absurd (hstop hlt).pure.1 (by decide)

theorem program_eq_ok {input : Input} {c c' : Cursor} {tree : Concrete}
    (h : c.program input = (.ok tree, c')) :
    Production.Runs Production.program input c tree c' := by
  unfold Cursor.program at h
  split at h
  · rename_i hrun
    cases h
    exact hrun
  · cases h

/-- A script that is read to its end comes from a derivation over all significant tokens, with as
many faults as reports. -/
theorem program_derives {input : Input} {tree : Concrete} {c : Cursor}
    (h : Cursor.initial.program input = (.ok tree, c)) :
    ∃ ts, tree = input.nodeAt input.significant.size .script (input.indexAt 0) ts ∧
      Derives input .statements 0 input.significant.size c.problems.size ts := by
  obtain ⟨hall, ts, rfl, e, he, hd⟩ := (program_eq_ok h).program
  have hend : c.pos = input.significant.size :=
    Nat.le_antisymm (hd.forward.2 (Nat.zero_le _)) hall
  have hfaults : c.problems.size = e := by simpa [Cursor.initial] using he
  rw [hend, ← hfaults] at hd
  exact ⟨ts, by rw [hend]; rfl, hd⟩

end ScriptTree
