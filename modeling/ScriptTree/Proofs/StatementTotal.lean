import ScriptTree.Proofs.ExpressionTotal

/-! Lowering the trees of statements. -/
namespace ScriptTree

open Lowered

/-- Tags of trees that are lowered as statements of their own. -/
def Kind.isStatementTag : Kind → Bool
  | .block | .emptyStatement | .constKeyword | .ifKeyword | .whileKeyword | .doKeyword
  | .forKeyword | .forEach | .switchKeyword | .tryKeyword | .throwKeyword | .returnKeyword
  | .breakKeyword | .continueKeyword | .labelled | .withKeyword | .defaultXmlNamespace => true
  | _ => false

section
variable {tokens : Array Token} {limit room : Nat} {t : Concrete}

/-- A statement is lowered by the rule that its tag calls. -/
theorem statementTotal_of_rule (rule : Builder → Concrete → Ancestry → Lowered Node)
    (htag : ∀ b a bound, Lowering.statement (.ofTokens tokens) limit b t a bound =
      (do Lowering.guard limit a; rule b t a))
    (h : RuleTotal tokens limit room rule t) : StatementTotal tokens limit room t := by
  intro n a bound hn ha
  have hpos := t.height_pos
  obtain ⟨n, rfl⟩ : ∃ m, n = m + 1 := ⟨n - 1, by omega⟩
  change Total limit room (Lowering.statement (.ofTokens tokens) limit _ t a bound)
  rw [htag]
  exact (total_guard (by omega)).bind fun _ => h n a (by omega) (by omega)

/-- What a statement is lowered to when its tag is not that of a statement. -/
theorem statement_of_expression {b : Builder} {a : Ancestry} {bound : Nat}
    (hkind : t.kind.isStatementTag = false) :
    Lowering.statement (.ofTokens tokens) limit b t a bound =
      (do Lowering.guard limit a
          if t.kind = .functionKeyword ∧ Lowering.isNamed t then
            Lowering.function (.ofTokens tokens) b t a
          else Lowering.expressionStatement (.ofTokens tokens) b t a bound) := by
  unfold Lowering.statement
  refine congrArg (Lowering.guard limit a >>= ·) (funext fun _ => ?_)
  split
  case h_18 htag => simp [htag]
  case h_19 hother => rw [if_neg fun h => hother h.1]
  all_goals
    rename_i htag
    rw [htag] at hkind
    cases hkind

theorem statementTotal_of_expression (hkind : t.kind.isStatementTag = false)
    (h : ExpressionTotal tokens limit room t) : StatementTotal tokens limit room t := by
  intro n a bound hn ha
  have hpos := t.height_pos
  obtain ⟨n, rfl⟩ : ∃ m, n = m + 1 := ⟨n - 1, by omega⟩
  change Total limit room (Lowering.statement (.ofTokens tokens) limit _ t a bound)
  rw [statement_of_expression hkind]
  split
  · rename_i hfunction
    -- A named function is lowered in the same way as an expression.
    have hsame := h (n + 1) a (by omega) (by omega)
    change Total limit room (Lowering.expression (.ofTokens tokens) limit _ t a) at hsame
    unfold Lowering.expression at hsame
    rwa [hfunction.1] at hsame
  · refine (total_guard (by omega)).bind fun _ => ?_
    unfold Lowering.expressionStatement
    exact (h n (a.enter .expressionStatement) (by omega) (by simp; omega)).bind
      fun _ => total_ok _

end

section
variable {input : Input} {tokens : Array Token} (hover : input.Over tokens) {limit room : Nat}
  {k : Kind} {m p q s start bound : Nat} {t u v : Concrete} {ts us : List Concrete}
include hover

omit hover in
theorem total_blockStatement (ht : t.kind = .block ∧
      RuleTotal tokens limit room (Lowering.block (.ofTokens tokens)) t) :
    StatementTotal tokens limit room t := by
  refine statementTotal_of_rule (Lowering.block (.ofTokens tokens)) (fun b a bound => ?_) ht.2
  unfold Lowering.statement
  rw [ht.1]

theorem total_constStatement (hsees : input.Sees p .constKeyword)
    (hcommas : ts.IsChain (input.Between .comma))
    (hts : ∀ x ∈ ts, RuleTotal tokens limit room (Lowering.declarator (.ofTokens tokens)) x) :
    StatementTotal tokens limit room (input.nodeAt q .constKeyword (input.indexAt p) ts) := by
  refine statementTotal_of_rule (Lowering.constStatement (.ofTokens tokens))
    (fun _ _ _ => rfl) ?_
  intro n a hn ha
  unfold Lowering.constStatement
  refine (total_keyword hover hsees).bind fun _ => ?_
  refine (total_mapM fun x hx => (hts x hx).inside hx hn ha).bind fun _ => ?_
  exact (total_commas hover hcommas).bind fun _ => total_ok _

theorem total_ifStatement (hsees : input.Sees p .ifKeyword)
    (ht : ExpressionTotal tokens limit room t) (hu : StatementTotal tokens limit room u)
    (hts : ∀ x ∈ ts, StatementTotal tokens limit room x) :
    StatementTotal tokens limit room
      (input.nodeAt q .ifKeyword (input.indexAt p) (t :: u :: ts)) := by
  refine statementTotal_of_rule (Lowering.ifStatement (.ofTokens tokens)) (fun _ _ _ => rfl) ?_
  intro n a hn ha
  unfold Lowering.ifStatement
  refine (total_keyword hover hsees).bind fun _ => ?_
  refine Total.next rfl (Total.next rfl ?_)
  refine (ht.inside (by simp) hn ha).bind fun _ => ?_
  refine (hu.inside (by simp) hn ha).bind fun _ => ?_
  refine (total_option_mapM fun x hx => ?_).bind fun _ => total_ok _
  have hx : x ∈ ts := List.mem_of_getElem? (i := 0) hx
  exact (hts x hx).inside (by simp [hx]) hn ha

/-- A statement with a condition or an object in parentheses, and then a statement. -/
theorem total_whileStatement (hsees : input.Sees p .whileKeyword)
    (ht : ExpressionTotal tokens limit room t) (hu : StatementTotal tokens limit room u) :
    StatementTotal tokens limit room
      (input.nodeAt q .whileKeyword (input.indexAt p) [t, u]) := by
  refine statementTotal_of_rule (Lowering.whileStatement (.ofTokens tokens))
    (fun _ _ _ => rfl) ?_
  intro n a hn ha
  unfold Lowering.whileStatement
  refine (total_keyword hover hsees).bind fun _ => ?_
  refine Total.next rfl (Total.next rfl ?_)
  refine (ht.inside (by simp) hn ha).bind fun _ => ?_
  exact (hu.inside (by simp) hn ha).bind fun _ => total_ok _

theorem total_withStatement (hsees : input.Sees p .withKeyword)
    (ht : ExpressionTotal tokens limit room t) (hu : StatementTotal tokens limit room u) :
    StatementTotal tokens limit room
      (input.nodeAt q .withKeyword (input.indexAt p) [t, u]) := by
  refine statementTotal_of_rule (Lowering.withStatement (.ofTokens tokens))
    (fun _ _ _ => rfl) ?_
  intro n a hn ha
  unfold Lowering.withStatement
  refine Total.next rfl (Total.next rfl ?_)
  refine (total_keyword hover hsees).bind fun _ => ?_
  refine (ht.inside (by simp) hn ha).bind fun _ => ?_
  exact (hu.inside (by simp) hn ha).bind fun _ => total_ok _

theorem total_doStatement (hsees : input.Sees p .doKeyword)
    (ht : StatementTotal tokens limit room t) (hu : ExpressionTotal tokens limit room u) :
    StatementTotal tokens limit room
      (input.nodeAt q .doKeyword (input.indexAt p) [t, u]) := by
  refine statementTotal_of_rule (Lowering.doWhileStatement (.ofTokens tokens))
    (fun _ _ _ => rfl) ?_
  intro n a hn ha
  unfold Lowering.doWhileStatement
  refine (total_keyword hover hsees).bind fun _ => ?_
  refine Total.next rfl (Total.next rfl ?_)
  refine (ht.inside (by simp) hn ha).bind fun _ => ?_
  exact (hu.inside (by simp) hn ha).bind fun _ => total_ok _

/-- The head of a loop, whose parts are lowered with the loop. -/
def HeadTotal (input : Input) (tokens : Array Token) (limit room : Nat) :
    Bool → Concrete → Prop
  | false, t => ∃ q s x y z, t = input.nodeAt q .forStep s [x, y, z] ∧
      ExpressionTotal tokens limit room x ∧ ExpressionTotal tokens limit room y ∧
      ExpressionTotal tokens limit room z
  | true, t => ∃ q s x y, t = input.nodeAt q .forIter s [x, y] ∧ input.Between .inKeyword x y ∧
      ExpressionTotal tokens limit room x ∧ ExpressionTotal tokens limit room y

theorem total_forSteps (hsees : input.Sees p .forKeyword)
    (ht : HeadTotal input tokens limit room false t) (hu : StatementTotal tokens limit room u) :
    StatementTotal tokens limit room
      (input.nodeAt q .forKeyword (input.indexAt p) [t, u]) := by
  obtain ⟨q', s, x, y, z, rfl, hx, hy, hz⟩ := ht
  refine statementTotal_of_rule (fun b t a => Lowering.forLoop (.ofTokens tokens) b t a)
    (fun _ _ _ => rfl) ?_
  intro n a hn ha
  have hpart {w : Concrete} (hw : w ∈ [x, y, z]) (h : ExpressionTotal tokens limit room w) :
      Total limit room
        ((Builder.within (.ofTokens tokens) limit n).expression w (a.enter .forStatement)) := by
    have hhead : w.height < (input.nodeAt q' .forStep s [x, y, z]).height :=
      Concrete.height_lt_nodeAt hw
    refine h.below (Nat.lt_trans hhead ?_) hn ha (by simp)
    exact Concrete.height_lt_nodeAt (by simp)
  change Total limit room (Lowering.forStatement _ _ _ _ _ _)
  unfold Lowering.forStatement
  refine (total_keyword hover hsees).bind fun _ => ?_
  refine Total.next rfl (Total.next rfl (Total.next rfl ?_))
  refine (hpart (by simp) hx).bind fun _ => ?_
  refine (hpart (by simp) hy).bind fun _ => ?_
  refine (hpart (by simp) hz).bind fun _ => ?_
  exact (hu.inside (by simp) hn ha).bind fun _ => total_ok _

theorem total_forIn {kind : Kind} (hkind : kind = .forKeyword ∨ kind = .forEach)
    (hsees : input.Sees p .forKeyword)
    (ht : HeadTotal input tokens limit room true t) (hu : StatementTotal tokens limit room u) :
    StatementTotal tokens limit room (input.nodeAt q kind (input.indexAt p) [t, u]) := by
  obtain ⟨q', s, x, y, rfl, hin, hx, hy⟩ := ht
  have htag (b : Builder) (a : Ancestry) (bound : Nat) :
      Lowering.statement (.ofTokens tokens) limit b (input.nodeAt q kind (input.indexAt p)
        [input.nodeAt q' .forIter s [x, y], u]) a bound =
      (do Lowering.guard limit a
          Lowering.forInStatement (.ofTokens tokens) b (input.nodeAt q kind (input.indexAt p)
            [input.nodeAt q' .forIter s [x, y], u]) (input.nodeAt q' .forIter s [x, y]) u a) := by
    rcases hkind with rfl | rfl <;> rfl
  refine statementTotal_of_rule (fun b t a => Lowering.forInStatement (.ofTokens tokens) b t
    (input.nodeAt q' .forIter s [x, y]) u a) htag ?_
  intro n a hn ha
  have hpart {w : Concrete} {parent : NodeKind} (hw : w ∈ [x, y])
      (h : ExpressionTotal tokens limit room w) : Total limit room
        ((Builder.within (.ofTokens tokens) limit n).expression w (a.enter parent)) := by
    have hhead : w.height < (input.nodeAt q' .forIter s [x, y]).height :=
      Concrete.height_lt_nodeAt hw
    refine h.below (Nat.lt_trans hhead ?_) hn ha (by simp)
    exact Concrete.height_lt_nodeAt (by simp)
  obtain ⟨m, hsees', hstart, hbound⟩ := hin
  obtain ⟨j, hj, hindex⟩ := Lowering.exists_index? hover hsees' hstart hbound
  have hword := congrArg (·.bind (Lowering.keywordAt? (.ofTokens tokens))) hindex
  rw [Option.bind_some, Lowering.keywordAt?_of_sees hover hj, ← Lowering.keyword?] at hword
  unfold Lowering.forInStatement
  refine (total_keyword hover hsees).bind fun _ => ?_
  refine Total.next rfl (Total.next rfl ?_)
  rw [hword]
  refine Total.next rfl ?_
  refine (hpart (by simp) hx).bind fun _ => ?_
  refine (hpart (by simp) hy).bind fun _ => ?_
  exact (hu.inside (by simp) hn ha).bind fun _ => total_ok _

theorem total_caseClause (hsees : input.Sees p .caseKeyword)
    (ht : ExpressionTotal tokens limit room t)
    (hts : ∀ x ∈ ts, StatementTotal tokens limit room x) :
    RuleTotal tokens limit room (Lowering.switchClause (.ofTokens tokens))
      (input.nodeAt q .caseKeyword (input.indexAt p) (t :: ts)) := by
  intro n a hn ha
  change Total limit room (Lowering.caseClause _ _ _ _)
  unfold Lowering.caseClause
  refine (total_keyword hover hsees).bind fun _ => Total.next rfl ?_
  refine (ht.inside (by simp) hn ha).bind fun _ => ?_
  refine (total_mapM fun x hx => ?_).bind fun _ => total_ok _
  exact (hts x hx).inside (List.mem_cons_of_mem t hx) hn ha

theorem total_defaultClause (hsees : input.Sees p .defaultKeyword)
    (hts : ∀ x ∈ ts, StatementTotal tokens limit room x) :
    RuleTotal tokens limit room (Lowering.switchClause (.ofTokens tokens))
      (input.nodeAt q .defaultKeyword (input.indexAt p) ts) := by
  intro n a hn ha
  change Total limit room (Lowering.defaultClause _ _ _ _)
  unfold Lowering.defaultClause
  refine (total_keyword hover hsees).bind fun _ => ?_
  exact (total_mapM fun x hx => (hts x hx).inside hx hn ha).bind fun _ => total_ok _

theorem total_switchStatement (hsees : input.Sees p .switchKeyword)
    (ht : ExpressionTotal tokens limit room t)
    (hts : ∀ x ∈ ts, RuleTotal tokens limit room (Lowering.switchClause (.ofTokens tokens)) x) :
    StatementTotal tokens limit room
      (input.nodeAt q .switchKeyword (input.indexAt p) (t :: ts)) := by
  refine statementTotal_of_rule (Lowering.switchStatement (.ofTokens tokens))
    (fun _ _ _ => rfl) ?_
  intro n a hn ha
  unfold Lowering.switchStatement
  refine (total_keyword hover hsees).bind fun _ => Total.next rfl ?_
  refine (total_mapM fun x hx => ?_).bind fun _ => ?_
  · have hx : x ∈ ts := List.mem_mergeSort.mp hx
    exact (hts x hx).inside (List.mem_cons_of_mem t hx) hn ha
  · exact (ht.inside (by simp) hn ha).bind fun _ => total_ok _

theorem total_exceptionFilter (hsees : input.Sees p .ifKeyword)
    (ht : ExpressionTotal tokens limit room t) :
    RuleTotal tokens limit room (Lowering.exceptionFilter (.ofTokens tokens))
      (input.nodeAt q .ifKeyword (input.indexAt p) [t]) := by
  intro n a hn ha
  unfold Lowering.exceptionFilter
  refine (total_keyword hover hsees).bind fun _ => Total.next rfl ?_
  exact (ht.inside (by simp) hn ha).bind fun _ => total_ok _

theorem total_catchClause (hsees : input.Sees p .catchKeyword) (ht : t.kind = .identifier)
    (hone : ts.length ≤ 1)
    (hts : ∀ x ∈ ts, x.kind = .ifKeyword ∧
      RuleTotal tokens limit room (Lowering.exceptionFilter (.ofTokens tokens)) x)
    (hu : u.kind = .block ∧ RuleTotal tokens limit room (Lowering.block (.ofTokens tokens)) u) :
    RuleTotal tokens limit room (Lowering.catchClause (.ofTokens tokens))
      (input.nodeAt q .catchKeyword (input.indexAt p) (t :: (ts ++ [u]))) := by
  intro n a hn ha
  unfold Lowering.catchClause
  refine (total_keyword hover hsees).bind fun _ => ?_
  match ts, hone, hts with
  | [], _, _ =>
    refine Total.next rfl (Total.bind (total_option_mapM fun x hx => ?_) fun _ => ?_)
    · obtain ⟨hx, hfilter⟩ := Option.filter_eq_some_iff.mp hx
      cases hx
      rw [hu.1] at hfilter
      exact absurd hfilter (by decide)
    · refine (total_identifier ht).bind fun _ => ?_
      exact (hu.2.inside (by simp) hn ha).bind fun _ => total_ok _
  | [w], _, hts =>
    refine Total.next rfl (Total.bind (total_option_mapM fun x hx => ?_) fun _ => ?_)
    · obtain ⟨hx, -⟩ := Option.filter_eq_some_iff.mp hx
      cases hx
      exact (hts w List.mem_cons_self).2.inside (by simp) hn ha
    · refine (total_identifier ht).bind fun _ => ?_
      exact (hu.2.inside (by simp) hn ha).bind fun _ => total_ok _

theorem total_finallyClause (hsees : input.Sees p .finallyKeyword)
    (ht : RuleTotal tokens limit room (Lowering.block (.ofTokens tokens)) t) :
    RuleTotal tokens limit room (Lowering.finallyClause (.ofTokens tokens))
      (input.nodeAt q .finallyKeyword (input.indexAt p) [t]) := by
  intro n a hn ha
  unfold Lowering.finallyClause
  refine (total_keyword hover hsees).bind fun _ => Total.next rfl ?_
  exact (ht.inside (by simp) hn ha).bind fun _ => total_ok _

/-- The clauses of a `try` are told by their tags. -/
def TryClauseTotal (tokens : Array Token) (limit room : Nat) (t : Concrete) : Prop :=
  t.kind = .catchKeyword ∧
      RuleTotal tokens limit room (Lowering.catchClause (.ofTokens tokens)) t ∨
    t.kind = .finallyKeyword ∧
      RuleTotal tokens limit room (Lowering.finallyClause (.ofTokens tokens)) t

omit hover in
theorem total_tryClauses {b : Builder} {a : Ancestry}
    (h : ∀ x ∈ ts, x.kind = .catchKeyword ∧
        Total limit room (Lowering.catchClause (.ofTokens tokens) b x a) ∨
      x.kind = .finallyKeyword ∧
        Total limit room (Lowering.finallyClause (.ofTokens tokens) b x a)) :
    Total limit room (Lowering.tryClauses (.ofTokens tokens) b a ts) := by
  induction ts with
  | nil => exact total_ok _
  | cons x xs ih =>
    have hrest := ih fun y hy => h y (List.mem_cons_of_mem x hy)
    unfold Lowering.tryClauses
    rcases h x List.mem_cons_self with ⟨hkind, hx⟩ | ⟨hkind, hx⟩
    · rw [hkind]
      exact hx.bind fun _ => hrest.bind fun _ => total_ok _
    · rw [hkind]
      exact hx.bind fun _ => hrest.bind fun _ => total_ok _

theorem total_tryStatement (hsees : input.Sees p .tryKeyword)
    (ht : RuleTotal tokens limit room (Lowering.block (.ofTokens tokens)) t)
    (hts : ∀ x ∈ ts, TryClauseTotal tokens limit room x) :
    StatementTotal tokens limit room
      (input.nodeAt q .tryKeyword (input.indexAt p) (t :: ts)) := by
  refine statementTotal_of_rule (Lowering.tryStatement (.ofTokens tokens)) (fun _ _ _ => rfl) ?_
  intro n a hn ha
  unfold Lowering.tryStatement
  refine (total_keyword hover hsees).bind fun _ => Total.next rfl ?_
  refine (ht.inside (by simp) hn ha).bind fun _ => ?_
  refine (total_tryClauses fun x hx => ?_).bind fun _ => total_ok _
  rcases hts x hx with ⟨hkind, hx'⟩ | ⟨hkind, hx'⟩
  · exact .inl ⟨hkind, hx'.inside (List.mem_cons_of_mem t hx) hn ha⟩
  · exact .inr ⟨hkind, hx'.inside (List.mem_cons_of_mem t hx) hn ha⟩

theorem total_throwStatement (hsees : input.Sees p .throwKeyword)
    (ht : ExpressionTotal tokens limit room t) :
    StatementTotal tokens limit room
      (input.nodeAt q .throwKeyword (input.indexAt p) [t]) := by
  refine statementTotal_of_rule (Lowering.throwStatement (.ofTokens tokens))
    (fun _ _ _ => rfl) ?_
  intro n a hn ha
  unfold Lowering.throwStatement
  refine Total.next rfl ((total_keyword hover hsees).bind fun _ => ?_)
  exact (ht.inside (by simp) hn ha).bind fun _ => total_ok _

theorem total_returnStatement (hsees : input.Sees p .returnKeyword)
    (hts : ∀ x ∈ ts, ExpressionTotal tokens limit room x) :
    StatementTotal tokens limit room (input.nodeAt q .returnKeyword (input.indexAt p) ts) := by
  refine statementTotal_of_rule (Lowering.returnStatement (.ofTokens tokens))
    (fun _ _ _ => rfl) ?_
  intro n a hn ha
  unfold Lowering.returnStatement
  refine (total_option_mapM fun x hx => ?_).bind fun _ => ?_
  · have hx : x ∈ ts := List.mem_of_getElem? (i := 0) hx
    exact (hts x hx).inside hx hn ha
  · exact (total_keyword hover hsees).bind fun _ => total_ok _

theorem total_jumpStatement (hsees : input.Sees p k)
    (hk : k = .breakKeyword ∨ k = .continueKeyword) :
    StatementTotal tokens limit room (input.nodeAt q k (input.indexAt p) ts) := by
  refine statementTotal_of_rule (fun _ t _ => Lowering.jumpStatement (.ofTokens tokens) t)
    (fun _ _ _ => by rcases hk with rfl | rfl <;> rfl) ?_
  intro n a hn ha
  exact (total_keyword hover hsees).bind fun _ => total_ok _

omit hover in
theorem total_labelledStatement (ht : StatementTotal tokens limit room t) :
    StatementTotal tokens limit room (input.nodeAt q .labelled s [u, t]) := by
  refine statementTotal_of_rule (Lowering.labelledStatement (.ofTokens tokens))
    (fun _ _ _ => rfl) ?_
  intro n a hn ha
  unfold Lowering.labelledStatement
  refine Total.next rfl (Total.next rfl ?_)
  exact (ht.inside (by simp) hn ha).bind fun _ => total_ok _

omit hover in
theorem total_emptyStatement : StatementTotal tokens limit room
    (.inner .emptyStatement s (some s) []) :=
  statementTotal_of_rule
    (fun _ t _ => .ok (.emptyStatement (Lowering.rangeOf (.ofTokens tokens) t)))
    (fun _ _ _ => rfl) fun _ _ _ _ => total_ok _

omit hover in
/-- A leaf that has to be there is there, or it is left out. -/
theorem required_cases {e : Nat} (h : Derives input (.required k) p q e ts) :
    ts = [] ∨ ∃ j, input.Sees j k ∧ ts = [input.leafAt j k] := by
  cases h with
  | present hsees => exact .inr ⟨p, hsees, rfl⟩
  | lacking => exact .inl rfl
  | leaf _ htag => cases htag
  | missing htag => cases htag

theorem total_namespaceParts
    (hts : ts = [] ∨ ∃ j, input.Sees j .namespaceKeyword ∧ ts = [input.leafAt j .namespaceKeyword])
    (hus : us = [] ∨ ∃ j, input.Sees j .equals ∧ us = [input.leafAt j .equals]) :
    Total limit room (Lowering.namespaceParts (.ofTokens tokens) (ts ++ us)) := by
  have hequals : Total limit room (Lowering.namespaceParts (.ofTokens tokens) us) := by
    rcases hus with rfl | ⟨j, -, rfl⟩
    · exact total_ok _
    · exact total_ok _
  rcases hts with rfl | ⟨j, hj, rfl⟩
  · exact hequals
  · exact (total_keyword hover hj).bind fun _ => hequals.bind fun _ => total_ok _

theorem total_namespaceStatement (hsees : input.Sees p .defaultKeyword)
    (hxml : input.Sees (p + 1) .xmlKeyword)
    (hts : ts = [] ∨ ∃ j, input.Sees j .namespaceKeyword ∧ ts = [input.leafAt j .namespaceKeyword])
    (hus : us = [] ∨ ∃ j, input.Sees j .equals ∧ us = [input.leafAt j .equals])
    (ht : ExpressionTotal tokens limit room t) :
    StatementTotal tokens limit room (input.nodeAt q .defaultXmlNamespace (input.indexAt p)
      (input.leafAt p .defaultKeyword :: input.leafAt (p + 1) .xmlKeyword ::
        (ts ++ us ++ [t]))) := by
  refine statementTotal_of_rule (Lowering.defaultXmlNamespace (.ofTokens tokens))
    (fun _ _ _ => rfl) ?_
  intro n a hn ha
  have hparts : Total limit room (Lowering.namespaceParts (.ofTokens tokens) (ts ++ us)) :=
    total_namespaceParts hover hts hus
  have hvalue (parent : NodeKind) : Total limit room
      ((Builder.within (.ofTokens tokens) limit n).expression t (a.enter parent)) :=
    ht.inside (by simp) hn ha
  unfold Lowering.defaultXmlNamespace
  rcases hts with rfl | ⟨j, hj, rfl⟩ <;> rcases hus with rfl | ⟨i, hi, rfl⟩
  all_goals
    refine hparts.bind fun _ => ?_
    refine (total_keyword hover hsees).bind fun _ => ?_
    refine (total_keyword hover hxml).bind fun _ => ?_
    exact (hvalue _).bind fun _ => total_ok _

end

end ScriptTree
