import ScriptTree.Proofs.ExpressionWritten
import ScriptTree.Proofs.StatementTotal

/-! What statements are lowered to if nothing was reported. -/
namespace ScriptTree

open Lowered

/-- Tree `t` is lowered as a statement that is written with the tokens of rank `p` up to `q`. The
semicolon at its end need not be in its tree, but the tree around it ends after it. -/
structure WritesStatement (input : Input) (tokens : Array Token) (p q : Nat) (t : Concrete) :
    Prop where
  ends : ∃ m, input.Stands p m t ∧ (q = m ∨ input.Sees m .semicolon ∧ q = m + 1)
  gives : ∀ limit n a bound, input.afterAt q ≤ bound → Gives (Written input tokens p q)
    ((Builder.within (.ofTokens tokens) limit n).statement t a bound)

/-- Tree `t` is an expression in parentheses that are not part of it. -/
def WritesCondition (input : Input) (tokens : Array Token) (p q : Nat) (t : Concrete) : Prop :=
  input.Sees p .openParen ∧ ∃ m, q = m + 1 ∧ WritesExpression input tokens (p + 1) m t ∧
    input.Sees m .closeParen

/-- Tree `t` is a clause of a loop head, which may be empty. -/
structure WritesClause (input : Input) (tokens : Array Token) (p m : Nat) (t : Concrete) :
    Prop where
  start_eq : t.start = input.indexAt p
  meets : input.Meets t.after m
  gives : ∀ limit n a, Gives (Precedes input tokens .clauses p m)
    ((Builder.within (.ofTokens tokens) limit n).expression t a)

/-- Tree `t` is the head of a loop with three clauses. -/
structure WritesSteps (input : Input) (tokens : Array Token) (p m₁ m₂ q : Nat)
    (t x y z : Concrete) : Prop where
  kind_eq : t.kind = .forStep
  start_eq : t.start = input.indexAt p
  children_eq : t.children = [x, y, z]
  initial : WritesClause input tokens p m₁ x
  first : input.Sees m₁ .semicolon
  condition : WritesClause input tokens (m₁ + 1) m₂ y
  second : input.Sees m₂ .semicolon
  step : WritesClause input tokens (m₂ + 1) q z

/-- Tree `t` is the head of a loop over an object. -/
structure WritesIteration (input : Input) (tokens : Array Token) (p m q : Nat)
    (t x y : Concrete) : Prop where
  kind_eq : t.kind = .forIter
  start_eq : t.start = input.indexAt p
  children_eq : t.children = [x, y]
  item : WritesExpression input tokens p m x
  within : input.Sees m .inKeyword
  iterator : WritesExpression input tokens (m + 1) q y

section
variable {input : Input} {tokens : Array Token} (cuts : input.Cuts tokens) {k tag : Kind}
  {m p q s e start bound : Nat} {t u v : Concrete} {ts us : List Concrete} {n : Node}

/-- A statement is lowered by the rule that its tag calls. -/
theorem writesStatement_of_rule (rule : Builder → Concrete → Ancestry → Lowered Node)
    (htag : ∀ limit b a bound, Lowering.statement (.ofTokens tokens) limit b t a bound =
      (do Lowering.guard limit a; rule b t a))
    (h : WritesRule input tokens rule p q t) : WritesStatement input tokens p q t := by
  refine ⟨⟨q, h.stands, .inl rfl⟩, fun limit n a bound _ => ?_⟩
  cases n with
  | zero => exact gives_error
  | succ n =>
    change Gives _ (Lowering.statement (.ofTokens tokens) limit _ t a bound)
    rw [htag]
    exact (h.gives limit n a).then

theorem WritesStatement.lt_start {j : Nat} (h : WritesStatement input tokens p q t)
    (hover : input.Over tokens) (hj : j < p) : input.indexAt j < t.start := by
  obtain ⟨m, hm, _⟩ := h.ends
  exact hm.lt_start hover hj

theorem WritesStatement.follows (h : WritesStatement input tokens p q t)
    (hover : input.Over tokens) : input.Follows .semicolon t.after q := by
  obtain ⟨m, hm, rfl | ⟨hsees, rfl⟩⟩ := h.ends
  · exact hm.follows hover
  · exact hover.follows_succ (hm.follows hover) hsees

theorem Input.Stands.afterAt_le (h : input.Stands p q t) (hover : input.Over tokens)
    (hm : m ≤ q) : input.afterAt m ≤ t.after := by
  rw [h.after_eq]
  exact hover.afterAt_mono h.le_size hm

theorem Input.Meets.follows (h : input.Meets start m) : input.Follows k start m :=
  ⟨h.1, fun j hj hle => absurd (h.2 j hj) (Nat.not_lt_of_le hle)⟩

theorem EndsStatement.cases (h : EndsStatement input m q s) (hs : s = 0) :
    q = m ∨ input.Sees m .semicolon ∧ q = m + 1 := by
  cases h with
  | semicolon hsees => exact .inr ⟨hsees, rfl⟩
  | omitted => exact .inl rfl
  | missing => cases hs

theorem MaySemicolon.cases (h : MaySemicolon input m q) :
    q = m ∨ input.Sees m .semicolon ∧ q = m + 1 := by
  cases h with
  | present hsees => exact .inr ⟨hsees, rfl⟩
  | absent => exact .inl rfl

/-- No semicolon is found in a statement that has none. -/
theorem position?_semicolon_eq_none (hover : input.Over tokens) (whole : input.Stands p q t)
    (hstart : input.Follows tag start q) (hne : tag ≠ .semicolon) :
    Lowering.position? (.ofTokens tokens) .semicolon start t.after = none := by
  have hbound : t.after ≤ input.indexAt q := by
    rw [whole.after_eq]
    exact hover.afterAt_le_indexAt q
  rw [Lowering.position?, Lowering.index?_eq_none_of_follows hover hstart hne rfl hbound]
  rfl

theorem position?_semicolon (hover : input.Over tokens) (whole : input.Stands p (m + 1) t)
    (hstart : input.Follows tag start m) (hne : tag ≠ .semicolon)
    (hsees : input.Sees m .semicolon) :
    Lowering.position? (.ofTokens tokens) .semicolon start t.after =
      some (input.startAt tokens m) :=
  Lowering.position?_of_follows hover hstart hne hsees (whole.lt_after hover (Nat.lt_succ_self m))

/-- The semicolon at the end of a statement is kept if it is there. -/
theorem spells_semicolon (hover : input.Over tokens) (whole : input.Stands p q t)
    (hstart : input.Follows tag start m) (hne : tag ≠ .semicolon)
    (hend : q = m ∨ input.Sees m .semicolon ∧ q = m + 1) :
    Spells input tokens m q
      (Part.sign? (Lowering.position? (.ofTokens tokens) .semicolon start t.after)) := by
  rcases hend with rfl | ⟨hsees, rfl⟩
  · rw [position?_semicolon_eq_none hover whole hstart hne]
    exact .nil
  · rw [position?_semicolon hover whole hstart hne hsees]
    exact .sign hsees .nil

theorem spells_end (hover : input.Over tokens) (whole : input.Stands p q t)
    (hstart : input.Meets start m) (hend : EndsStatement input m q 0) :
    Spells input tokens m q
      (Part.sign? (Lowering.position? (.ofTokens tokens) .semicolon start t.after)) :=
  spells_semicolon hover whole (hstart.follows (k := .comma)) (by decide) (hend.cases rfl)

/-- A statement of which no semicolon is kept ends where it may. -/
theorem closes_semicolon (hover : input.Over tokens) (whole : input.Stands p q t)
    (hstart : input.Follows tag start m) (hne : tag ≠ .semicolon)
    (hend : EndsStatement input m q 0) :
    input.Closes q (Lowering.position? (.ofTokens tokens) .semicolon start t.after) := by
  cases hend with
  | semicolon hsees =>
    rw [position?_semicolon hover whole hstart hne hsees]
    exact hsees
  | omitted _ hmay =>
    rw [position?_semicolon_eq_none hover whole hstart hne]
    exact hmay

theorem closes_end (hover : input.Over tokens) (whole : input.Stands p q t)
    (hstart : input.Meets start m) (hend : EndsStatement input m q 0) :
    input.Closes q (Lowering.position? (.ofTokens tokens) .semicolon start t.after) :=
  closes_semicolon hover whole (hstart.follows (k := .comma)) (by decide) hend

/-- The semicolon of an expression statement is the next token after the expression. -/
theorem terminator?_of_sees (hover : input.Over tokens) (hstart : input.Meets start m)
    (hsees : input.Sees m .semicolon) (hbound : input.indexAt m < bound) :
    Lowering.terminator? (.ofTokens tokens) start bound = some (input.startAt tokens m) := by
  obtain ⟨x, hx, hkind, _, _⟩ := hover.token_of_sees hsees
  have hfound := Lowering.nextSignificant?_of_meets hover hstart hsees.lt_size
    (show input.indexAt m ≤ bound - 1 by omega)
  have hlt : ¬bound ≤ start := Nat.not_le_of_lt (Nat.lt_of_le_of_lt hstart.1 hbound)
  unfold Lowering.terminator?
  simp only [hlt, if_false, hfound, TokenTable.ofTokens_tokens]
  simp [hx, hkind, Input.startAt]

/-- No semicolon is taken from behind another token. -/
theorem terminator?_eq_none (hover : input.Over tokens) (hstart : input.Meets start m)
    (hsees : ¬input.Sees m .semicolon) :
    Lowering.terminator? (.ofTokens tokens) start bound = none := by
  by_cases hfound : m < input.significant.size ∧ input.indexAt m ≤ bound - 1
  · obtain ⟨x, hx, hkind, _, _⟩ := hover.token_of_sees (Input.sees_kindAt_of_lt hfound.1)
    have hother : x.kind ≠ .semicolon := by
      rw [hkind]
      intro h
      exact hsees (h ▸ Input.sees_kindAt_of_lt hfound.1)
    unfold Lowering.terminator?
    simp only [Lowering.nextSignificant?_of_meets hover hstart hfound.1 hfound.2,
      TokenTable.ofTokens_tokens]
    simp [hx, hother]
  · have hnone : TokenTable.nextSignificant? (.ofTokens tokens) start (bound - 1) = none :=
      Lowering.nextSignificant?_eq_none hover hstart
        fun hm => Nat.lt_of_not_le fun hle => hfound ⟨hm, hle⟩
    unfold Lowering.terminator?
    simp [hnone]

include cuts

/-- An expression in the place of a statement. -/
theorem writes_expressionStatement (hkind : t.kind.isStatementTag = false)
    (hfunction : t.kind ≠ .functionKeyword) (ht : WritesExpression input tokens p m t)
    (hend : EndsStatement input m q 0) : WritesStatement input tokens p q t := by
  have hover := cuts.toOver
  refine ⟨⟨m, ht.stands, hend.cases rfl⟩, fun limit n a bound hbound => ?_⟩
  cases n with
  | zero => exact gives_error
  | succ n =>
    change Gives _ (Lowering.statement (.ofTokens tokens) limit _ t a bound)
    rw [statement_of_expression hkind, if_neg fun h => hfunction h.1]
    refine Gives.then ?_
    unfold Lowering.expressionStatement
    refine (ht.gives _ _ _).bind fun inside hinside => gives_ok ?_
    rw [ht.stands.isEmpty_eq_false hover, if_neg Bool.false_ne_true]
    cases hend with
    | semicolon hsees =>
      have hlt : input.indexAt m < bound := by
        rw [Input.afterAt_succ hsees.lt_size] at hbound
        exact hbound
      rw [terminator?_of_sees hover (ht.stands.meets hover) hsees hlt]
      refine written_inner rfl rfl rfl hsees ?_ (hinside.spells (.sign hsees .nil))
      refine ⟨Nat.lt_succ_of_lt ht.stands.lt, hsees.lt_size, hinside.spans.start_eq, ?_⟩
      have hfirst := cuts.startAt_lt ht.stands.lt_size ht.stands.lt
      rw [cuts.stopAt_succ_semicolon hsees]
      refine Nat.max_eq_left ?_
      rw [hinside.spans.start_eq]
      omega
    | omitted hsees hmay =>
      rw [terminator?_eq_none hover (ht.stands.meets hover) hsees]
      exact written_inner rfl rfl rfl hmay hinside.spans (hinside.spells .nil)

omit cuts in
theorem writes_functionStatement (hkind : t.kind = .functionKeyword)
    (hnamed : Lowering.isNamed t = true)
    (h : WritesRule input tokens (Lowering.function (.ofTokens tokens)) p q t) :
    WritesStatement input tokens p q t := by
  refine writesStatement_of_rule _ (fun limit b a bound => ?_) h
  rw [statement_of_expression (by rw [hkind]; rfl), if_pos ⟨hkind, hnamed⟩]

theorem writes_emptyStatement (hsees : input.Sees p .semicolon) :
    WritesStatement input tokens p (p + 1)
      (.inner .emptyStatement (input.indexAt p) (some (input.indexAt p)) []) := by
  have whole : input.Stands p (p + 1)
      (.inner .emptyStatement (input.indexAt p) (some (input.indexAt p)) []) := by
    refine ⟨Nat.lt_succ_self p, hsees.lt_size, rfl, ?_⟩
    rw [Concrete.after, Concrete.lastToken?_inner, Input.afterAt_succ hsees.lt_size]
    rfl
  refine writesStatement_of_rule
    (fun _ t _ => .ok (.emptyStatement (Lowering.rangeOf (.ofTokens tokens) t)))
    (fun _ _ _ _ => rfl) ⟨whole, fun limit n a => gives_ok (written_word cuts hsees rfl rfl ?_)⟩
  have hlt := cuts.startAt_lt_stopAt_succ hsees.lt_size
  change Lowering.rangeOf _ _ = _
  rw [Lowering.rangeOf, whole.start_eq, whole.after_eq, Range.between, Nat.max_eq_left]
  · exact congrArg (Range.mk _) (cuts.stopAt_succ hsees.lt_size)
  · exact Nat.le_of_lt hlt

theorem writes_constStatement (whole : input.Stands p q
      (input.nodeAt q .constKeyword (input.indexAt p) ts))
    (hsees : input.Sees p .constKeyword)
    (hfollows : input.Follows .comma (Lowering.afterLast ts (input.indexAt p + 1)) m)
    (hts : WritesRow input tokens
      (WritesRule input tokens (Lowering.declarator (.ofTokens tokens))) (p + 1) m ts)
    (hend : EndsStatement input m q 0) :
    WritesStatement input tokens p q (input.nodeAt q .constKeyword (input.indexAt p) ts) := by
  refine writesStatement_of_rule (Lowering.constStatement (.ofTokens tokens))
    (fun _ _ _ _ => rfl) ⟨whole, fun limit n a => ?_⟩
  have hover := cuts.toOver
  obtain ⟨commas, hcommas, hts⟩ := hts
  have hlast : Lowering.afterLast ts (input.indexAt p + 1) =
      (ts.getLast?.map (·.after)).getD (input.indexAt p + 1) := by
    unfold Lowering.afterLast
    cases ts.getLast? <;> rfl
  rw [hlast] at hfollows
  unfold Lowering.constStatement
  refine Gives.next (Lowering.keyword_first hover whole hsees) ?_
  refine (hts _ fun _ _ _ h => h.gives _ _ _).bind fun declarations hdeclarations => ?_
  refine Gives.next hcommas (gives_ok ?_)
  exact written_inner rfl rfl rfl
    (closes_semicolon hover whole hfollows (by decide) hend)
    (Lowering.spans_rangeOf cuts whole)
    ((written_keyword cuts hsees).spells
      (hdeclarations.append (spells_semicolon hover whole hfollows (by decide) (hend.cases rfl))))

theorem writes_throwStatement (whole : input.Stands p q
      (input.nodeAt q .throwKeyword (input.indexAt p) [t]))
    (hsees : input.Sees p .throwKeyword) (ht : WritesExpression input tokens (p + 1) m t)
    (hend : EndsStatement input m q 0) :
    WritesStatement input tokens p q
      (input.nodeAt q .throwKeyword (input.indexAt p) [t]) := by
  refine writesStatement_of_rule (Lowering.throwStatement (.ofTokens tokens))
    (fun _ _ _ _ => rfl) ⟨whole, fun limit n a => ?_⟩
  have hover := cuts.toOver
  unfold Lowering.throwStatement
  refine Gives.next rfl (Gives.next (Lowering.keyword_first hover whole hsees) ?_)
  refine (ht.gives _ _ _).bind fun exception hexception => gives_ok ?_
  exact written_inner rfl rfl rfl
    (closes_end hover whole (ht.stands.meets hover) hend)
    (Lowering.spans_rangeOf cuts whole)
    ((written_keyword cuts hsees).spells (hexception.spells
      (spells_end hover whole (ht.stands.meets hover) hend)))

theorem writes_return (whole : input.Stands p q
      (input.nodeAt q .returnKeyword (input.indexAt p) []))
    (hsees : input.Sees p .returnKeyword) (hend : EndsStatement input (p + 1) q 0) :
    WritesStatement input tokens p q
      (input.nodeAt q .returnKeyword (input.indexAt p) []) := by
  refine writesStatement_of_rule (Lowering.returnStatement (.ofTokens tokens))
    (fun _ _ _ _ => rfl) ⟨whole, fun limit n a => ?_⟩
  have hover := cuts.toOver
  unfold Lowering.returnStatement
  refine Gives.next rfl (Gives.next (Lowering.keyword_first hover whole hsees) (gives_ok ?_))
  exact written_inner rfl rfl rfl
    ⟨closes_end hover whole (whole.meets_second hover) hend, fun hne => absurd rfl hne⟩
    (Lowering.spans_rangeOf cuts whole)
    ((written_keyword cuts hsees).spells (spells_end hover whole (whole.meets_second hover) hend))

theorem writes_returnValue (whole : input.Stands p q
      (input.nodeAt q .returnKeyword (input.indexAt p) [t]))
    (hsees : input.Sees p .returnKeyword) (ht : WritesExpression input tokens (p + 1) m t)
    (hline : input.brokenAt (p + 1) = false) (hend : EndsStatement input m q 0) :
    WritesStatement input tokens p q
      (input.nodeAt q .returnKeyword (input.indexAt p) [t]) := by
  refine writesStatement_of_rule (Lowering.returnStatement (.ofTokens tokens))
    (fun _ _ _ _ => rfl) ⟨whole, fun limit n a => ?_⟩
  have hover := cuts.toOver
  unfold Lowering.returnStatement
  refine (gives_mapM_some (ht.gives limit n _)).bind ?_
  rintro _ ⟨value, rfl, hvalue⟩
  refine Gives.next (Lowering.keyword_first hover whole hsees) (gives_ok ?_)
  exact written_inner rfl rfl rfl
    ⟨closes_end hover whole (ht.stands.meets hover) hend, fun _ => hline⟩
    (Lowering.spans_rangeOf cuts whole)
    ((written_keyword cuts hsees).spells (hvalue.spells
      (spells_end hover whole (ht.stands.meets hover) hend)))

theorem writes_jump (whole : input.Stands p q (input.nodeAt q k (input.indexAt p) []))
    (hk : k = .breakKeyword ∨ k = .continueKeyword) (hsees : input.Sees p k)
    (hend : EndsStatement input (p + 1) q 0) :
    WritesStatement input tokens p q (input.nodeAt q k (input.indexAt p) []) := by
  refine writesStatement_of_rule (fun _ t _ => Lowering.jumpStatement (.ofTokens tokens) t)
    (fun _ _ _ _ => by rcases hk with rfl | rfl <;> rfl) ⟨whole, fun limit n a => ?_⟩
  have hover := cuts.toOver
  refine Gives.next (Lowering.keyword_first hover whole hsees) (gives_ok ?_)
  exact written_inner rfl rfl rfl
    ⟨closes_end hover whole (whole.meets_second hover) hend, fun hne => absurd rfl hne⟩
    (Lowering.spans_rangeOf cuts whole)
    ((written_keyword cuts hsees).spells (spells_end hover whole (whole.meets_second hover) hend))

theorem writes_jumpTo (whole : input.Stands p q
      (input.nodeAt q k (input.indexAt p) [input.leafAt (p + 1) .identifier]))
    (hk : k = .breakKeyword ∨ k = .continueKeyword) (hsees : input.Sees p k)
    (hlabel : input.Sees (p + 1) tag) (hline : input.brokenAt (p + 1) = false)
    (hend : EndsStatement input (p + 2) q 0) :
    WritesStatement input tokens p q
      (input.nodeAt q k (input.indexAt p) [input.leafAt (p + 1) .identifier]) := by
  refine writesStatement_of_rule (fun _ t _ => Lowering.jumpStatement (.ofTokens tokens) t)
    (fun _ _ _ _ => by rcases hk with rfl | rfl <;> rfl) ⟨whole, fun limit n a => ?_⟩
  have hover := cuts.toOver
  have hleaf : input.Stands (p + 1) (p + 2) (input.leafAt (p + 1) .identifier) :=
    hlabel.stands_leafAt
  refine Gives.next (Lowering.keyword_first hover whole hsees) (gives_ok ?_)
  exact written_inner rfl rfl rfl
    ⟨closes_end hover whole (hleaf.meets hover) hend, fun _ => hline⟩
    (Lowering.spans_rangeOf cuts whole)
    ((written_keyword cuts hsees).spells (.word hlabel rfl rfl rfl
      (spells_end hover whole (hleaf.meets hover) hend)))

theorem writes_labelled (whole : input.Stands p q
      (input.nodeAt q .labelled (input.indexAt p) [input.leafAt p .identifier, t]))
    (hsees : input.Sees p k) (hcolon : input.Sees (p + 1) .colon)
    (ht : WritesStatement input tokens (p + 2) q t) :
    WritesStatement input tokens p q
      (input.nodeAt q .labelled (input.indexAt p) [input.leafAt p .identifier, t]) := by
  refine writesStatement_of_rule (Lowering.labelledStatement (.ofTokens tokens))
    (fun _ _ _ _ => rfl) ⟨whole, fun limit n a => ?_⟩
  have hover := cuts.toOver
  unfold Lowering.labelledStatement
  refine Gives.next rfl (Gives.next rfl ?_)
  refine (ht.gives _ _ _ _ (whole.afterAt_le hover (Nat.le_refl q))).bind fun statement hst =>
    gives_ok ?_
  rw [Lowering.position?_after hover hsees.stands_leafAt hcolon
    (ht.lt_start hover (Nat.lt_succ_self _))]
  exact written_inner rfl rfl rfl trivial (Lowering.spans_rangeOf cuts whole)
    (.word hsees rfl rfl rfl (.sign hcolon (hst.spells .nil)))

/-- The head of a statement: a keyword and a condition in parentheses. -/
theorem spells_head {condition : Node} {parts : List Part} (hsees : input.Sees p k)
    (hopen : input.Sees (p + 1) .openParen) (hcondition : Written input tokens (p + 2) m condition)
    (hclose : input.Sees m .closeParen) (hparts : Spells input tokens (m + 1) q parts) :
    Spells input tokens p q (.node (.keyword ⟨input.rangeAt tokens p, k⟩) ::
      .sign (input.startAt tokens (p + 1)) :: .node condition ::
      .sign (input.startAt tokens m) :: parts) :=
  (written_keyword cuts hsees).spells (.sign hopen (hcondition.spells (.sign hclose hparts)))

theorem writes_while (whole : input.Stands p q
      (input.nodeAt q .whileKeyword (input.indexAt p) [t, u]))
    (hsees : input.Sees p .whileKeyword) (ht : WritesCondition input tokens (p + 1) m t)
    (hu : WritesStatement input tokens m q u) :
    WritesStatement input tokens p q
      (input.nodeAt q .whileKeyword (input.indexAt p) [t, u]) := by
  refine writesStatement_of_rule (Lowering.whileStatement (.ofTokens tokens))
    (fun _ _ _ _ => rfl) ⟨whole, fun limit n a => ?_⟩
  have hover := cuts.toOver
  obtain ⟨hopen, m, rfl, ht, hclose⟩ := ht
  unfold Lowering.whileStatement
  refine Gives.next (Lowering.keyword_first hover whole hsees) ?_
  refine Gives.next rfl (Gives.next rfl ?_)
  refine (ht.gives _ _ _).bind fun condition hcondition => ?_
  refine (hu.gives _ _ _ _ (whole.afterAt_le hover (Nat.le_refl q))).bind fun body hbody =>
    gives_ok ?_
  rw [Lowering.position?_second hover whole hopen (ht.stands.lt_start hover (Nat.lt_succ_self _)),
    Lowering.position?_after hover ht.stands hclose (hu.lt_start hover (Nat.lt_succ_self m))]
  exact written_inner rfl rfl rfl trivial (Lowering.spans_rangeOf cuts whole)
    (spells_head cuts hsees hopen hcondition hclose (hbody.spells .nil))

theorem writes_with (whole : input.Stands p q
      (input.nodeAt q .withKeyword (input.indexAt p) [t, u]))
    (hsees : input.Sees p .withKeyword) (ht : WritesCondition input tokens (p + 1) m t)
    (hu : WritesStatement input tokens m q u) :
    WritesStatement input tokens p q
      (input.nodeAt q .withKeyword (input.indexAt p) [t, u]) := by
  refine writesStatement_of_rule (Lowering.withStatement (.ofTokens tokens))
    (fun _ _ _ _ => rfl) ⟨whole, fun limit n a => ?_⟩
  have hover := cuts.toOver
  obtain ⟨hopen, m, rfl, ht, hclose⟩ := ht
  unfold Lowering.withStatement
  refine Gives.next rfl (Gives.next rfl ?_)
  refine Gives.next (Lowering.keyword_first hover whole hsees) ?_
  refine (ht.gives _ _ _).bind fun object hobject => ?_
  refine (hu.gives _ _ _ _ (whole.afterAt_le hover (Nat.le_refl q))).bind fun body hbody =>
    gives_ok ?_
  rw [Lowering.position?_second hover whole hopen (ht.stands.lt_start hover (Nat.lt_succ_self _)),
    Lowering.position?_after hover ht.stands hclose (hu.lt_start hover (Nat.lt_succ_self m))]
  exact written_inner rfl rfl rfl trivial (Lowering.spans_rangeOf cuts whole)
    (spells_head cuts hsees hopen hobject hclose (hbody.spells .nil))

theorem writes_if (whole : input.Stands p q
      (input.nodeAt q .ifKeyword (input.indexAt p) [t, u]))
    (hsees : input.Sees p .ifKeyword) (ht : WritesCondition input tokens (p + 1) m t)
    (hu : WritesStatement input tokens m q u) :
    WritesStatement input tokens p q (input.nodeAt q .ifKeyword (input.indexAt p) [t, u]) := by
  refine writesStatement_of_rule (Lowering.ifStatement (.ofTokens tokens))
    (fun _ _ _ _ => rfl) ⟨whole, fun limit n a => ?_⟩
  have hover := cuts.toOver
  obtain ⟨hopen, m, rfl, ht, hclose⟩ := ht
  unfold Lowering.ifStatement
  refine Gives.next (Lowering.keyword_first hover whole hsees) ?_
  refine Gives.next rfl (Gives.next rfl ?_)
  refine (ht.gives _ _ _).bind fun condition hcondition => ?_
  refine (hu.gives _ _ _ _ (whole.afterAt_le hover (Nat.le_refl q))).bind fun body hbody => ?_
  refine Gives.next rfl (gives_ok ?_)
  rw [Lowering.position?_second hover whole hopen (ht.stands.lt_start hover (Nat.lt_succ_self _)),
    Lowering.position?_after hover ht.stands hclose (hu.lt_start hover (Nat.lt_succ_self m))]
  exact written_inner rfl rfl rfl trivial (Lowering.spans_rangeOf cuts whole)
    (spells_head cuts hsees hopen hcondition hclose (hbody.spells .nil))

theorem writes_ifElse {r : Nat} (whole : input.Stands p q
      (input.nodeAt q .ifKeyword (input.indexAt p) [t, u, v]))
    (hsees : input.Sees p .ifKeyword) (ht : WritesCondition input tokens (p + 1) m t)
    (hu : WritesStatement input tokens m r u) (helse : input.Sees r .elseKeyword)
    (hv : WritesStatement input tokens (r + 1) q v) (hr : r ≤ q) :
    WritesStatement input tokens p q
      (input.nodeAt q .ifKeyword (input.indexAt p) [t, u, v]) := by
  refine writesStatement_of_rule (Lowering.ifStatement (.ofTokens tokens))
    (fun _ _ _ _ => rfl) ⟨whole, fun limit n a => ?_⟩
  have hover := cuts.toOver
  obtain ⟨hopen, m, rfl, ht, hclose⟩ := ht
  have hword : ((input.nodeAt q .ifKeyword (input.indexAt p) [t, u, v]).child? 2).bind
      (fun e => Lowering.keyword? (.ofTokens tokens) .elseKeyword u.after e.start) =
        some ⟨input.rangeAt tokens r, .elseKeyword⟩ :=
    Lowering.keyword?_of_follows hover (hu.follows hover) (by decide) helse
      (hv.lt_start hover (Nat.lt_succ_self r))
  unfold Lowering.ifStatement
  refine Gives.next (Lowering.keyword_first hover whole hsees) ?_
  refine Gives.next rfl (Gives.next rfl ?_)
  refine (ht.gives _ _ _).bind fun condition hcondition => ?_
  refine (hu.gives _ _ _ _ (whole.afterAt_le hover hr)).bind fun body hbody => ?_
  refine (gives_mapM_some (hv.gives _ _ _ _ (whole.afterAt_le hover (Nat.le_refl q)))).bind ?_
  rintro _ ⟨other, rfl, hother⟩
  refine gives_ok ?_
  rw [Lowering.position?_second hover whole hopen (ht.stands.lt_start hover (Nat.lt_succ_self _)),
    Lowering.position?_after hover ht.stands hclose (hu.lt_start hover (Nat.lt_succ_self m)),
    hword]
  exact written_inner rfl rfl rfl trivial (Lowering.spans_rangeOf cuts whole)
    (spells_head cuts hsees hopen hcondition hclose
      (hbody.spells ((written_keyword cuts helse).spells (hother.spells .nil))))

theorem writes_do {r : Nat} (whole : input.Stands p q
      (input.nodeAt q .doKeyword (input.indexAt p) [t, u]))
    (hsees : input.Sees p .doKeyword) (ht : WritesStatement input tokens (p + 1) m t)
    (hwhile : input.Sees m .whileKeyword) (hu : WritesCondition input tokens (m + 1) r u)
    (hend : MaySemicolon input r q) :
    WritesStatement input tokens p q (input.nodeAt q .doKeyword (input.indexAt p) [t, u]) := by
  refine writesStatement_of_rule (Lowering.doWhileStatement (.ofTokens tokens))
    (fun _ _ _ _ => rfl) ⟨whole, fun limit n a => ?_⟩
  have hover := cuts.toOver
  obtain ⟨hopen, r, rfl, hu, hclose⟩ := hu
  have hrq : r + 1 ≤ q := by
    have := hend.forward.1
    omega
  have hmr := hu.stands.lt
  unfold Lowering.doWhileStatement
  refine Gives.next (Lowering.keyword_first hover whole hsees) ?_
  refine Gives.next rfl (Gives.next rfl ?_)
  refine (ht.gives _ _ _ _ (whole.afterAt_le hover (by omega))).bind fun body hbody => ?_
  refine (hu.gives _ _ _).bind fun condition hcondition => gives_ok ?_
  rw [Lowering.index?_of_follows hover (ht.follows hover) (by decide) hwhile
      (hu.stands.lt_start hover (by omega)), Option.map_some, Option.getD_some, Option.bind_some,
    Lowering.keywordAt?_of_sees hover hwhile,
    Lowering.position?_of_meets hover (hover.meets_succ hwhile.lt_size) hopen
      (hu.stands.lt_start hover (Nat.lt_succ_self _)),
    Lowering.position?_after hover hu.stands hclose (whole.lt_after hover (by omega))]
  have hlast := spells_semicolon hover whole (hover.follows_succ (hu.stands.follows hover) hclose)
    (by decide) hend.cases
  exact written_inner rfl rfl rfl trivial (Lowering.spans_rangeOf cuts whole)
    ((written_keyword cuts hsees).spells (hbody.spells ((written_keyword cuts hwhile).spells
      (.sign hopen (hcondition.spells (.sign hclose hlast))))))

/-! Loop heads. -/

theorem writesClause_empty (hsees : input.Sees p k) :
    WritesClause input tokens p p (.absent .expr (input.indexAt p)) where
  start_eq := rfl
  meets := by
    rw [Concrete.after, Concrete.lastToken?_absent]
    exact cuts.meets_indexAt hsees.lt_size
  gives limit n a := by
    cases n with
    | zero => exact gives_error
    | succ n => exact Gives.then (gives_ok (precedes_hole cuts hsees))

theorem writesClause_of_expression (h : WritesExpression input tokens p m t) :
    WritesClause input tokens p m (Production.clause t) where
  start_eq := h.stands.start_eq
  meets := h.stands.around.meets cuts.toOver
  gives limit n a := by
    cases n with
    | zero => exact gives_error
    | succ n =>
      exact Gives.then fun node hnode => (h.gives limit n a node hnode).precedes cuts .clauses

omit cuts in
theorem WritesClause.lt_start {j : Nat} (h : WritesClause input tokens (j + 1) m t)
    (hover : input.Over tokens) (hj : j < input.significant.size) :
    input.indexAt j < t.start := by
  rw [h.start_eq]
  exact hover.indexAt_lt hj (Nat.lt_succ_self j)

omit cuts in
theorem child_of_children {i : Nat} {what : String} (h : t.children[i]? = some u) :
    Lowering.child t i what = .ok u := by
  rw [Lowering.child, Concrete.child?, h]

theorem writes_for {x y z : Concrete} {m₁ m₂ m₃ : Nat}
    (whole : input.Stands p q (input.nodeAt q .forKeyword (input.indexAt p) [t, u]))
    (hsees : input.Sees p .forKeyword) (hopen : input.Sees (p + 1) .openParen)
    (ht : WritesSteps input tokens (p + 2) m₁ m₂ m₃ t x y z) (hclose : input.Sees m₃ .closeParen)
    (hu : WritesStatement input tokens (m₃ + 1) q u) :
    WritesStatement input tokens p q (input.nodeAt q .forKeyword (input.indexAt p) [t, u]) := by
  refine writesStatement_of_rule (fun b t a => Lowering.forLoop (.ofTokens tokens) b t a)
    (fun _ _ _ _ => rfl) ⟨whole, fun limit n a => ?_⟩
  have hover := cuts.toOver
  have hchildren := ht.children_eq
  unfold Lowering.forLoop
  refine Gives.next rfl (Gives.next rfl ?_)
  rw [ht.kind_eq]
  change Gives _ (Lowering.forStatement _ _ _ _ _ _)
  unfold Lowering.forStatement
  refine Gives.next (Lowering.keyword_first hover whole hsees) ?_
  refine Gives.next (child_of_children (by rw [hchildren]; rfl)) ?_
  refine Gives.next (child_of_children (by rw [hchildren]; rfl)) ?_
  refine Gives.next (child_of_children (by rw [hchildren]; rfl)) ?_
  refine (ht.initial.gives _ _ _).bind fun initial hinitial => ?_
  refine (ht.condition.gives _ _ _).bind fun condition hcondition => ?_
  refine (ht.step.gives _ _ _).bind fun step hstep => ?_
  refine (hu.gives _ _ _ _ (whole.afterAt_le hover (Nat.le_refl q))).bind fun body hbody =>
    gives_ok ?_
  have hhead : input.indexAt (p + 1) < t.start := by
    rw [ht.start_eq]
    exact hover.indexAt_lt hopen.lt_size (Nat.lt_succ_self _)
  rw [Lowering.position?_second hover whole hopen hhead,
    Lowering.position?_of_meets hover ht.initial.meets ht.first
      (ht.condition.lt_start hover ht.first.lt_size),
    Lowering.position?_of_meets hover ht.condition.meets ht.second
      (ht.step.lt_start hover ht.second.lt_size),
    Lowering.position?_of_meets hover ht.step.meets hclose
      (hu.lt_start hover (Nat.lt_succ_self m₃))]
  exact written_inner rfl rfl rfl trivial (Lowering.spans_rangeOf cuts whole)
    ((written_keyword cuts hsees).spells (.sign hopen (hinitial.spells_sign ht.first
      (hcondition.spells_sign ht.second (hstep.spells_sign hclose (hbody.spells .nil))))))

/-- A loop over an object. Between `for` and the parenthesis of rank `o` an `each` may stand. -/
theorem gives_forIn {x y tree : Concrete} {o r limit n : Nat} {a : Ancestry}
    {each : Option Keyword} (whole : input.Stands p q tree) (hsees : input.Sees p .forKeyword)
    (heach : (if tree.kind == .forEach then
      Lowering.keyword? (.ofTokens tokens) .eachKeyword (tree.start + 1) t.start else none) = each)
    (hsecond : each.isSome = true ↔ input.Sees (p + 1) .eachKeyword)
    (hlead : ∀ {parts : List Part}, Spells input tokens o q parts →
      Spells input tokens (p + 1) q (Part.node? (each.map .keyword) ++ parts))
    (hposition : Lowering.position? (.ofTokens tokens) .openParen (tree.start + 1) t.start =
      some (input.startAt tokens o)) (hopen : input.Sees o .openParen)
    (ht : WritesIteration input tokens (o + 1) m r t x y) (hclose : input.Sees r .closeParen)
    (hu : WritesStatement input tokens (r + 1) q u) :
    Gives (Written input tokens p q)
      (Lowering.forInStatement (.ofTokens tokens) (Builder.within (.ofTokens tokens) limit n)
        tree t u a) := by
  have hover := cuts.toOver
  have hchildren := ht.children_eq
  unfold Lowering.forInStatement
  refine Gives.next (Lowering.keyword_first hover whole hsees) ?_
  refine Gives.next (child_of_children (by rw [hchildren]; rfl)) ?_
  refine Gives.next (child_of_children (by rw [hchildren]; rfl)) ?_
  rw [Lowering.keyword?_of_meets hover (ht.item.stands.meets hover) ht.within
    (ht.iterator.stands.lt_start hover (Nat.lt_succ_self m))]
  refine Gives.next rfl ?_
  refine (ht.item.gives _ _ _).bind fun item hitem => ?_
  refine (ht.iterator.gives _ _ _).bind fun iterator hiterator => ?_
  refine (hu.gives _ _ _ _ (whole.afterAt_le hover (Nat.le_refl q))).bind fun body hbody =>
    gives_ok ?_
  rw [heach, hposition, Lowering.position?_after hover ht.iterator.stands hclose
    (hu.lt_start hover (Nat.lt_succ_self r))]
  refine written_inner rfl rfl rfl hsecond (Lowering.spans_rangeOf cuts whole) ?_
  simp only [Node.parts, List.append_assoc, List.cons_append]
  exact (written_keyword cuts hsees).spells (hlead (.sign hopen (hitem.spells
    ((written_keyword cuts ht.within).spells (hiterator.spells (.sign hclose
      (hbody.spells .nil)))))))

theorem writes_forIn {x y : Concrete} {r : Nat}
    (whole : input.Stands p q (input.nodeAt q .forKeyword (input.indexAt p) [t, u]))
    (hsees : input.Sees p .forKeyword) (hopen : input.Sees (p + 1) .openParen)
    (ht : WritesIteration input tokens (p + 2) m r t x y) (hclose : input.Sees r .closeParen)
    (hu : WritesStatement input tokens (r + 1) q u) :
    WritesStatement input tokens p q (input.nodeAt q .forKeyword (input.indexAt p) [t, u]) := by
  refine writesStatement_of_rule (fun b t a => Lowering.forLoop (.ofTokens tokens) b t a)
    (fun _ _ _ _ => rfl) ⟨whole, fun limit n a => ?_⟩
  have hover := cuts.toOver
  have hhead : input.indexAt (p + 1) < t.start := by
    rw [ht.start_eq]
    exact hover.indexAt_lt hopen.lt_size (Nat.lt_succ_self _)
  unfold Lowering.forLoop
  refine Gives.next rfl (Gives.next rfl ?_)
  rw [ht.kind_eq]
  have hsecond : (none : Option Keyword).isSome = true ↔ input.Sees (p + 1) .eachKeyword :=
    iff_of_false Bool.false_ne_true (hopen.not_other (by decide))
  exact gives_forIn cuts whole hsees rfl hsecond id
    (Lowering.position?_second hover whole hopen hhead) hopen ht hclose hu

theorem writes_forEachIn {x y : Concrete} {r : Nat}
    (whole : input.Stands p q (input.nodeAt q .forEach (input.indexAt p) [t, u]))
    (hsees : input.Sees p .forKeyword) (heach : input.Sees (p + 1) .eachKeyword)
    (hopen : input.Sees (p + 2) .openParen)
    (ht : WritesIteration input tokens (p + 3) m r t x y) (hclose : input.Sees r .closeParen)
    (hu : WritesStatement input tokens (r + 1) q u) :
    WritesStatement input tokens p q (input.nodeAt q .forEach (input.indexAt p) [t, u]) := by
  refine writesStatement_of_rule (fun b t a => Lowering.forLoop (.ofTokens tokens) b t a)
    (fun _ _ _ _ => rfl) ⟨whole, fun limit n a => ?_⟩
  have hover := cuts.toOver
  have hhead : input.indexAt (p + 2) < t.start := by
    rw [ht.start_eq]
    exact hover.indexAt_lt hopen.lt_size (Nat.lt_succ_self _)
  have hfollows := hover.follows_succ ((whole.meets_second hover).follows) heach
  have hword := Lowering.keyword?_of_meets hover (whole.meets_second hover) heach
    (Nat.lt_trans (hover.indexAt_lt heach.lt_size (Nat.lt_succ_self _)) hhead)
  unfold Lowering.forLoop
  refine Gives.next rfl (Gives.next rfl ?_)
  rw [ht.kind_eq]
  exact gives_forIn cuts whole hsees hword (iff_of_true rfl heach)
    (written_keyword cuts heach).spells
    (Lowering.position?_of_follows hover hfollows (by decide) hopen hhead) hopen ht hclose hu

/-! Switches. -/

/-- Trees that `rule` lowers to nodes that are written one after the other. -/
def WritesInTurn (input : Input) (tokens : Array Token)
    (rule : Builder → Concrete → Ancestry → Lowered Node) (p q : Nat) (ts : List Concrete) :
    Prop :=
  ∀ limit n a, Gives (fun nodes => Spells input tokens p q (nodes.map .node))
    (ts.mapM (rule (Builder.within (.ofTokens tokens) limit n) · a))

omit cuts in
theorem writesInTurn_nil {rule : Builder → Concrete → Ancestry → Lowered Node} :
    WritesInTurn input tokens rule p p [] := fun _ _ _ => gives_ok .nil

omit cuts in
theorem writesInTurn_cons {rule : Builder → Concrete → Ancestry → Lowered Node}
    (ht : WritesRule input tokens rule p m t) (hts : WritesInTurn input tokens rule m q ts) :
    WritesInTurn input tokens rule p q (t :: ts) := by
  intro limit n a
  rw [List.mapM_cons]
  refine (ht.gives limit n a).bind fun node hnode => ?_
  exact (hts limit n a).bind fun nodes hnodes => gives_ok (hnode.spells hnodes)

theorem writes_caseClause (whole : input.Stands p q
      (input.nodeAt q .caseKeyword (input.indexAt p) (t :: ts)))
    (hsees : input.Sees p .caseKeyword) (ht : WritesExpression input tokens (p + 1) m t)
    (hcolon : input.Sees m .colon) (hread : Derives input .statements (m + 1) q e ts)
    (hts : WritesStatements input tokens (m + 1) q ts) :
    WritesRule input tokens (Lowering.switchClause (.ofTokens tokens)) p q
      (input.nodeAt q .caseKeyword (input.indexAt p) (t :: ts)) := by
  refine ⟨whole, fun limit n a => ?_⟩
  have hover := cuts.toOver
  have hbound : input.indexAt m < Lowering.firstStart ts
      (input.nodeAt q .caseKeyword (input.indexAt p) (t :: ts)).after :=
    Lowering.firstStart_gt (hread.fits hover) hcolon (whole.lt_after hover hread.le)
  change Gives _ (Lowering.caseClause _ _ _ _)
  unfold Lowering.caseClause
  refine Gives.next (Lowering.keyword_first hover whole hsees) (Gives.next rfl ?_)
  refine (ht.gives _ _ _).bind fun condition hcondition => ?_
  refine (hts limit n _ _ (whole.afterAt_le hover (Nat.le_refl q))).bind fun body hbody =>
    gives_ok ?_
  rw [show (input.nodeAt q Kind.caseKeyword (input.indexAt p) (t :: ts)).children.drop 1 = ts
    from rfl, Lowering.position?_after hover ht.stands hcolon hbound]
  exact written_inner rfl rfl rfl trivial (Lowering.spans_rangeOf cuts whole)
    ((written_keyword cuts hsees).spells (hcondition.spells (.sign hcolon hbody)))

theorem writes_defaultClause (whole : input.Stands p q t) (hkind : t.kind = .defaultKeyword)
    (hsees : input.Sees p .defaultKeyword) (hcolon : input.Sees (p + 1) .colon)
    (hread : Derives input .statements (p + 2) q e t.children)
    (hts : WritesStatements input tokens (p + 2) q t.children) :
    WritesRule input tokens (Lowering.switchClause (.ofTokens tokens)) p q t := by
  refine ⟨whole, fun limit n a => ?_⟩
  have hover := cuts.toOver
  have hbound : input.indexAt (p + 1) < Lowering.firstStart t.children t.after :=
    Lowering.firstStart_gt (hread.fits hover) hcolon (whole.lt_after hover hread.le)
  rw [Lowering.switchClause, hkind]
  change Gives _ (Lowering.defaultClause _ _ _ _)
  unfold Lowering.defaultClause
  refine Gives.next (Lowering.keyword_first hover whole hsees) ?_
  refine (hts limit n _ _ (whole.afterAt_le hover (Nat.le_refl q))).bind fun body hbody =>
    gives_ok ?_
  rw [Lowering.position?_second hover whole hcolon hbound]
  exact written_inner rfl rfl rfl trivial (Lowering.spans_rangeOf cuts whole)
    ((written_keyword cuts hsees).spells (.sign hcolon hbody))

theorem writes_switch {c : Nat} (whole : input.Stands p (m + 1)
      (input.nodeAt (m + 1) .switchKeyword (input.indexAt p) (t :: ts)))
    (hsees : input.Sees p .switchKeyword) (ht : WritesCondition input tokens (p + 1) c t)
    (hopen : input.Sees c .openBrace) (hclose : input.Sees m .closeBrace)
    (hread : Derives input .clauses (c + 1) m e ts) (he : e = 0)
    (hts : WritesInTurn input tokens (Lowering.switchClause (.ofTokens tokens)) (c + 1) m ts) :
    WritesStatement input tokens p (m + 1)
      (input.nodeAt (m + 1) .switchKeyword (input.indexAt p) (t :: ts)) := by
  refine writesStatement_of_rule (Lowering.switchStatement (.ofTokens tokens))
    (fun _ _ _ _ => rfl) ⟨whole, fun limit n a => ?_⟩
  have hover := cuts.toOver
  obtain ⟨hparen, c, rfl, ht, hparen'⟩ := ht
  have hclauses : Lowering.sorted ((input.nodeAt (m + 1) .switchKeyword (input.indexAt p)
      (t :: ts)).children.drop 1) = ts :=
    hread.sorted_eq hover he hopen.lt_size rfl
  have hbound : input.indexAt (c + 1) < Lowering.firstStart ts
      (input.nodeAt (m + 1) .switchKeyword (input.indexAt p) (t :: ts)).after := by
    have hend := hread.le
    exact Lowering.firstStart_gt (hread.fits hover) hopen (whole.lt_after hover (by omega))
  have hmax := hread.clauses_max_after hover he hopen.lt_size
  rw [Input.afterAt_succ hopen.lt_size] at hmax
  have hmeets : input.Meets (input.afterAt m) m :=
    ⟨hover.afterAt_le_indexAt m,
      fun _ hj => hover.indexAt_lt_afterAt (Nat.le_of_lt hclose.lt_size) hj⟩
  unfold Lowering.switchStatement
  refine Gives.next (Lowering.keyword_first hover whole hsees) (Gives.next rfl ?_)
  rw [hclauses]
  refine (hts limit n _).bind fun clauses hspells => ?_
  refine (ht.gives _ _ _).bind fun condition hcondition => gives_ok ?_
  rw [Lowering.index?_of_follows hover (hover.follows_succ (ht.stands.follows hover) hparen')
      (by decide) hopen hbound, Option.map_some, Option.map_some, Option.getD_some,
    Option.getD_some, hmax,
    Lowering.position?_second hover whole hparen (ht.stands.lt_start hover (Nat.lt_succ_self _)),
    Lowering.position?_after hover ht.stands hparen'
      (hover.indexAt_lt hparen'.lt_size (Nat.lt_succ_self _)),
    Lowering.position?_of_meets hover hmeets hclose (whole.lt_after hover (Nat.lt_succ_self m))]
  exact written_inner rfl rfl rfl trivial (Lowering.spans_rangeOf cuts whole)
    (spells_head cuts hsees hparen hcondition hparen'
      (.sign hopen (hspells.append (.sign hclose .nil))))

/-! Exceptions. -/

theorem writes_exceptionFilter (whole : input.Stands p q
      (input.nodeAt q .ifKeyword (input.indexAt p) [t]))
    (hsees : input.Sees p .ifKeyword) (ht : WritesExpression input tokens (p + 1) q t) :
    WritesRule input tokens (Lowering.exceptionFilter (.ofTokens tokens)) p q
      (input.nodeAt q .ifKeyword (input.indexAt p) [t]) := by
  refine ⟨whole, fun limit n a => ?_⟩
  unfold Lowering.exceptionFilter
  refine Gives.next (Lowering.keyword_first cuts.toOver whole hsees) (Gives.next rfl ?_)
  refine (ht.gives _ _ _).bind fun condition hcondition => gives_ok ?_
  exact written_inner rfl rfl rfl trivial (Lowering.spans_rangeOf cuts whole)
    ((written_keyword cuts hsees).spells (hcondition.spells .nil))

theorem writes_finallyClause (whole : input.Stands p q
      (input.nodeAt q .finallyKeyword (input.indexAt p) [t]))
    (hsees : input.Sees p .finallyKeyword)
    (ht : WritesRule input tokens (Lowering.block (.ofTokens tokens)) (p + 1) q t) :
    WritesRule input tokens (Lowering.finallyClause (.ofTokens tokens)) p q
      (input.nodeAt q .finallyKeyword (input.indexAt p) [t]) := by
  refine ⟨whole, fun limit n a => ?_⟩
  unfold Lowering.finallyClause
  refine Gives.next (Lowering.keyword_first cuts.toOver whole hsees) (Gives.next rfl ?_)
  refine (ht.gives _ _ _).bind fun body hbody => gives_ok ?_
  exact written_inner rfl rfl rfl trivial (Lowering.spans_rangeOf cuts whole)
    ((written_keyword cuts hsees).spells (hbody.spells .nil))

theorem writes_catch (whole : input.Stands p q
      (input.nodeAt q .catchKeyword (input.indexAt p) [input.leafAt (p + 2) .identifier, t]))
    (hsees : input.Sees p .catchKeyword) (hopen : input.Sees (p + 1) .openParen)
    (hname : input.Sees (p + 2) k) (hclose : input.Sees (p + 3) .closeParen)
    (hkind : t.kind = .block)
    (ht : WritesRule input tokens (Lowering.block (.ofTokens tokens)) (p + 4) q t) :
    WritesRule input tokens (Lowering.catchClause (.ofTokens tokens)) p q
      (input.nodeAt q .catchKeyword (input.indexAt p)
        [input.leafAt (p + 2) .identifier, t]) := by
  refine ⟨whole, fun limit n a => ?_⟩
  have hover := cuts.toOver
  have hexception := writes_identifier cuts hname
  have hfilter : ((input.nodeAt q .catchKeyword (input.indexAt p)
      [input.leafAt (p + 2) .identifier, t]).child? 1).filter (·.kind == .ifKeyword) = none := by
    change (some t).filter _ = none
    rw [Option.filter_some, hkind]
    rfl
  unfold Lowering.catchClause
  refine Gives.next (Lowering.keyword_first hover whole hsees) ?_
  refine Gives.next (a := (input.leafAt (p + 2) .identifier, t)) rfl ?_
  rw [hfilter]
  refine Gives.next rfl ?_
  refine (hexception.gives limit n _).bind fun exception hexception' => ?_
  refine (ht.gives _ _ _).bind fun body hbody => gives_ok ?_
  rw [Option.getD_none, Lowering.position?_second hover whole hopen
      (hexception.stands.lt_start hover (Nat.lt_succ_self _)),
    Lowering.position?_after hover hexception.stands hclose
      (ht.stands.lt_start hover (Nat.lt_succ_self _))]
  exact written_inner rfl rfl rfl trivial (Lowering.spans_rangeOf cuts whole)
    ((written_keyword cuts hsees).spells (.sign hopen (hexception'.spells
      (.sign hclose (hbody.spells .nil)))))

theorem writes_filteredCatch (whole : input.Stands p q
      (input.nodeAt q .catchKeyword (input.indexAt p) [input.leafAt (p + 2) .identifier, u, t]))
    (hsees : input.Sees p .catchKeyword) (hopen : input.Sees (p + 1) .openParen)
    (hname : input.Sees (p + 2) k) (hkind : u.kind = .ifKeyword)
    (hu : WritesRule input tokens (Lowering.exceptionFilter (.ofTokens tokens)) (p + 3) m u)
    (hclose : input.Sees m .closeParen)
    (ht : WritesRule input tokens (Lowering.block (.ofTokens tokens)) (m + 1) q t) :
    WritesRule input tokens (Lowering.catchClause (.ofTokens tokens)) p q
      (input.nodeAt q .catchKeyword (input.indexAt p)
        [input.leafAt (p + 2) .identifier, u, t]) := by
  refine ⟨whole, fun limit n a => ?_⟩
  have hover := cuts.toOver
  have hexception := writes_identifier cuts hname
  have hfilter : ((input.nodeAt q .catchKeyword (input.indexAt p)
      [input.leafAt (p + 2) .identifier, u, t]).child? 1).filter (·.kind == .ifKeyword) =
        some u := by
    change (some u).filter _ = some u
    rw [Option.filter_some, hkind]
    rfl
  unfold Lowering.catchClause
  refine Gives.next (Lowering.keyword_first hover whole hsees) ?_
  refine Gives.next (a := (input.leafAt (p + 2) .identifier, t)) rfl ?_
  rw [hfilter]
  refine (gives_mapM_some (hu.gives limit n _)).bind ?_
  rintro _ ⟨filter, rfl, hfilter'⟩
  refine (hexception.gives limit n _).bind fun exception hexception' => ?_
  refine (ht.gives _ _ _).bind fun body hbody => gives_ok ?_
  rw [Option.getD_some, Lowering.position?_second hover whole hopen
      (hexception.stands.lt_start hover (Nat.lt_succ_self _)),
    Lowering.position?_after hover hu.stands hclose (ht.stands.lt_start hover (Nat.lt_succ_self m))]
  exact written_inner rfl rfl rfl trivial (Lowering.spans_rangeOf cuts whole)
    ((written_keyword cuts hsees).spells (.sign hopen (hexception'.spells (hfilter'.spells
      (.sign hclose (hbody.spells .nil))))))

/-- The clauses of a `try` are lowered to nodes that are written one after the other. -/
def WritesTryClauses (input : Input) (tokens : Array Token) (p q : Nat) (ts : List Concrete) :
    Prop :=
  ∀ limit n a, Gives
    (fun clauses => Spells input tokens p q (clauses.1.map .node ++ Part.node? clauses.2))
    (Lowering.tryClauses (.ofTokens tokens) (Builder.within (.ofTokens tokens) limit n) a ts)

omit cuts in
theorem writesTryClauses_nil : WritesTryClauses input tokens p p [] :=
  fun _ _ _ => gives_ok .nil

omit cuts in
theorem writesTryClauses_catch (hkind : t.kind = .catchKeyword)
    (ht : WritesRule input tokens (Lowering.catchClause (.ofTokens tokens)) p m t)
    (hts : WritesTryClauses input tokens m q ts) : WritesTryClauses input tokens p q (t :: ts) := by
  intro limit n a
  unfold Lowering.tryClauses
  rw [hkind]
  refine (ht.gives limit n a).bind fun clause hclause => ?_
  exact (hts limit n a).bind fun rest hrest => gives_ok (hclause.spells hrest)

omit cuts in
theorem writesTryClauses_finally (hkind : t.kind = .finallyKeyword)
    (ht : WritesRule input tokens (Lowering.finallyClause (.ofTokens tokens)) p q t) :
    WritesTryClauses input tokens p q [t] := by
  intro limit n a
  unfold Lowering.tryClauses
  rw [hkind]
  refine (ht.gives limit n a).bind fun clause hclause => ?_
  exact Gives.next rfl (gives_ok (hclause.spells .nil))

theorem writes_try (whole : input.Stands p q
      (input.nodeAt q .tryKeyword (input.indexAt p) (t :: ts)))
    (hsees : input.Sees p .tryKeyword)
    (ht : WritesRule input tokens (Lowering.block (.ofTokens tokens)) (p + 1) m t)
    (hts : WritesTryClauses input tokens m q ts) :
    WritesStatement input tokens p q
      (input.nodeAt q .tryKeyword (input.indexAt p) (t :: ts)) := by
  refine writesStatement_of_rule (Lowering.tryStatement (.ofTokens tokens))
    (fun _ _ _ _ => rfl) ⟨whole, fun limit n a => ?_⟩
  unfold Lowering.tryStatement
  refine Gives.next (Lowering.keyword_first cuts.toOver whole hsees) (Gives.next rfl ?_)
  refine (ht.gives _ _ _).bind fun body hbody => ?_
  refine (hts limit n _).bind fun clauses hclauses => gives_ok ?_
  exact written_inner rfl rfl rfl trivial (Lowering.spans_rangeOf cuts whole)
    ((written_keyword cuts hsees).spells (hbody.spells hclauses))

theorem writes_namespace (whole : input.Stands p q
      (input.nodeAt q .defaultXmlNamespace (input.indexAt p)
        [input.leafAt p .defaultKeyword, input.leafAt (p + 1) .xmlKeyword,
          input.leafAt (p + 2) .namespaceKeyword, input.leafAt (p + 3) .equals, t]))
    (hsees : input.Sees p .defaultKeyword) (hxml : input.Sees (p + 1) .xmlKeyword)
    (hspace : input.Sees (p + 2) .namespaceKeyword) (hequals : input.Sees (p + 3) .equals)
    (ht : WritesExpression input tokens (p + 4) m t) (hend : EndsStatement input m q 0) :
    WritesStatement input tokens p q
      (input.nodeAt q .defaultXmlNamespace (input.indexAt p)
        [input.leafAt p .defaultKeyword, input.leafAt (p + 1) .xmlKeyword,
          input.leafAt (p + 2) .namespaceKeyword, input.leafAt (p + 3) .equals, t]) := by
  refine writesStatement_of_rule (Lowering.defaultXmlNamespace (.ofTokens tokens))
    (fun _ _ _ _ => rfl) ⟨whole, fun limit n a => ?_⟩
  have hover := cuts.toOver
  have hparts : Lowering.namespaceParts (.ofTokens tokens)
      [input.leafAt (p + 2) .namespaceKeyword, input.leafAt (p + 3) .equals] =
        .ok (some ⟨input.rangeAt tokens (p + 2), .namespaceKeyword⟩,
          some (input.startAt tokens (p + 3))) := by
    unfold Lowering.namespaceParts
    change (do let word ← Lowering.keyword _ _ (input.indexAt (p + 2)); _) = _
    rw [Lowering.keyword_of_sees hover hspace]
    rfl
  unfold Lowering.defaultXmlNamespace
  refine Gives.next hparts ?_
  refine Gives.next (Lowering.keyword_of_sees hover hsees) ?_
  refine Gives.next (Lowering.keyword_of_sees hover hxml) ?_
  refine (ht.gives _ _ _).bind fun value hvalue => gives_ok ?_
  exact written_inner rfl rfl rfl
    (closes_end hover whole (ht.stands.meets hover) hend)
    (Lowering.spans_rangeOf cuts whole)
    ((written_keyword cuts hsees).spells ((written_keyword cuts hxml).spells
      ((written_keyword cuts hspace).spells (.sign hequals (hvalue.spells
        (spells_end hover whole (ht.stands.meets hover) hend))))))

end
end ScriptTree
