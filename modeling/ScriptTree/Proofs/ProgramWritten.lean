import ScriptTree.Parse
import ScriptTree.Proofs.ProgramTotal
import ScriptTree.Proofs.StatementWritten
import ScriptTree.Proofs.TextCut

/-!
What scripts are lowered to. If the grammar reports nothing, every node of the script is written
with the tokens its tree was built of, from the first significant token of the list to the last.
-/
namespace ScriptTree

open Lowered

variable {input : Input} {tokens : Array Token} {p m q e : Nat} {k tag : Kind} {r : Rule}
  {t : Concrete} {ts : List Concrete}

/-- An expression that is a function begins with its keyword. -/
theorem Derives.sees_function (h : Derives input r p q e ts) (he : e = 0)
    (hr : r.buildsExpression = true) :
    ∀ t ∈ ts, t.kind = .functionKeyword → input.Sees p .functionKeyword := by
  induction h with
  | functionOperand _ ih | primaryOf _ ih | memberOf _ ih | trailingOf _ ih | unaryOf _ ih
  | binaryOf _ ih | conditionalOf _ ih | assignmentOf _ ih | expressionOf _ ih => exact ih he rfl
  | invalid | missing => cases he
  | named hsees | unnamed hsees => exact fun _ _ _ => hsees
  | leaf _ htag =>
    refine List.forall_mem_singleton.mpr fun hkind => ?_
    obtain rfl | ⟨rfl, rfl | hatom⟩ := leafTag?_cases htag
    · cases hkind
    · cases hkind
    · obtain rfl : _ = Kind.functionKeyword := hkind
      cases hatom
  | paren | array | object | xml | new | newCall | index | call | choose | yield | commas
  | declaration => exact List.forall_mem_singleton.mpr nofun
  | access _ _ htag =>
    refine List.forall_mem_singleton.mpr fun hkind => ?_
    obtain rfl : _ = Kind.functionKeyword := hkind
    unfold Rule.accessTag? at htag
    split at htag <;> cases htag
  | trailed _ _ htag =>
    refine List.forall_mem_singleton.mpr fun hkind => ?_
    obtain rfl : _ = Kind.functionKeyword := hkind
    unfold Production.trailingOperator? at htag
    split at htag <;> cases htag
  | leading _ htag =>
    refine List.forall_mem_singleton.mpr fun hkind => ?_
    obtain rfl : _ = Kind.functionKeyword := hkind
    unfold Production.leadingOperator? at htag
    split at htag <;> cases htag
  | operate _ _ hprecedence =>
    refine List.forall_mem_singleton.mpr fun hkind => ?_
    obtain rfl : _ = Kind.functionKeyword := hkind
    cases hprecedence
  | assign _ _ hoperator =>
    refine List.forall_mem_singleton.mpr fun hkind => ?_
    obtain rfl : _ = Kind.functionKeyword := hkind
    cases hoperator
  | _ => cases hr

/-- How the trees of a rule are lowered if nothing was reported. -/
def Rule.Writes (input : Input) (tokens : Array Token) : Rule → Nat → Nat → List Concrete → Prop
  | .identifier, p, q, ts => ∀ t ∈ ts, IsName input p q t
  | .property, p, q, ts =>
    ∀ t ∈ ts, WritesRule input tokens (Lowering.objectMember (.ofTokens tokens)) p q t
  | .items, p, q, ts =>
    WritesSpareRow input tokens .clauses (Lowering.item (.ofTokens tokens)) p q ts
  | .members, p, q, ts =>
    WritesSpareRow input tokens .nothing (Lowering.objectMember (.ofTokens tokens)) p q ts
  | .xmlParts, p, q, ts => WritesFragments input tokens p q ts
  | .statement, p, q, ts => ∀ t ∈ ts, WritesStatement input tokens p q t
  | .statements, p, q, ts => WritesStatements input tokens p q ts
  | .block, p, q, ts => ∀ t ∈ ts, t.kind = .block ∧
      WritesRule input tokens (Lowering.block (.ofTokens tokens)) p q t
  | .function isStatement, p, q, ts => ∀ t ∈ ts, t.kind = .functionKeyword ∧
      (isStatement = true → Lowering.isNamed t = true) ∧
      WritesRule input tokens (Lowering.function (.ofTokens tokens)) p q t
  | .declarator, p, q, ts =>
    ∀ t ∈ ts, WritesRule input tokens (Lowering.declarator (.ofTokens tokens)) p q t
  | .condition, p, q, ts => ∀ t ∈ ts, WritesCondition input tokens p q t
  | .alternative, p, q, ts => ts = [] ∧ q = p ∨
      ∃ t, ts = [t] ∧ input.Sees p .elseKeyword ∧ WritesStatement input tokens (p + 1) q t
  | .clause, p, q, ts => ∀ t ∈ ts, ∀ k, input.Sees q k → WritesClause input tokens p q t
  | .forHead false, p, q, ts => ∀ t ∈ ts, ∀ k, input.Sees q k →
      ∃ x y z m₁ m₂, WritesSteps input tokens p m₁ m₂ q t x y z
  | .forHead true, p, q, ts => ∀ t ∈ ts, ∃ x y m, WritesIteration input tokens p m q t x y
  | .clauses, p, q, ts =>
    WritesInTurn input tokens (Lowering.switchClause (.ofTokens tokens)) p q ts
  | .switchClause, p, q, ts =>
    ∀ t ∈ ts, WritesRule input tokens (Lowering.switchClause (.ofTokens tokens)) p q t
  | .catches, p, q, ts => ∀ s us, WritesTryClauses input tokens q s us →
      WritesTryClauses input tokens p s (ts ++ us)
  | .catchClause, p, q, ts => ∀ t ∈ ts, t.kind = .catchKeyword ∧
      WritesRule input tokens (Lowering.catchClause (.ofTokens tokens)) p q t
  | .exceptionFilter, p, q, ts => ∀ t ∈ ts, t.kind = .ifKeyword ∧
      WritesRule input tokens (Lowering.exceptionFilter (.ofTokens tokens)) p q t
  | .finallyClause, p, q, ts => ∀ t ∈ ts, t.kind = .finallyKeyword ∧
      WritesRule input tokens (Lowering.finallyClause (.ofTokens tokens)) p q t
  | .required k, p, q, ts => ts = [input.leafAt p k] ∧ input.Sees p k ∧ q = p + 1
  | .separated r, p, q, ts => r.isExact = true →
      WritesRow input tokens (fun p q t => r.Writes input tokens p q [t]) p q ts
  | .listed r, p, q, ts => r.isExact = true →
      ∀ t ∈ ts, WritesListed input tokens (fun p q t => r.Writes input tokens p q [t]) p q t
  | .optional r, p, q, ts => ts = [] ∧ q = p ∨ ∃ t, ts = [t] ∧ r.Writes input tokens p q [t]
  | _, p, q, ts => ∀ t ∈ ts, WritesExpression input tokens p q t

theorem WritesRow.mono {P Q : Nat → Nat → Concrete → Prop} (h : WritesRow input tokens P p q ts)
    (hPQ : ∀ p q t, P p q t → Q p q t) : WritesRow input tokens Q p q ts := by
  obtain ⟨commas, hcommas, hts⟩ := h
  exact ⟨commas, hcommas, fun f hf => hts f fun p q t ht => hf p q t (hPQ p q t ht)⟩

theorem WritesListed.mono {P Q : Nat → Nat → Concrete → Prop}
    (h : WritesListed input tokens P p q t) (hPQ : ∀ p q t, P p q t → Q p q t) :
    WritesListed input tokens Q p q t :=
  ⟨h.stands, h.kind_eq, fun f hf => h.gives f fun p q t ht => hf p q t (hPQ p q t ht)⟩

theorem writes_of_leaf (cuts : input.Cuts tokens) (hsees : input.Sees p k)
    (htag : r.leafTag? k = some tag) :
    r.Writes input tokens p (p + 1) [input.leafAt p tag] := by
  cases r with
  | identifier =>
    simp only [Rule.leafTag?] at htag
    split at htag <;> cases htag
    exact List.forall_mem_singleton.mpr ⟨rfl, rfl, k, hsees⟩
  | selector | propertyName | operand =>
    exact List.forall_mem_singleton.mpr (writes_leaf cuts hsees htag)
  | _ => cases htag

/-- A function in the place of an expression. -/
theorem writes_functionOperand (hkind : t.kind = .functionKeyword)
    (h : WritesRule input tokens (Lowering.function (.ofTokens tokens)) p q t) :
    WritesExpression input tokens p q t := by
  refine writesExpression_of_rule _ (fun limit b a => ?_) h
  unfold Lowering.expression
  rw [hkind]

theorem writes_blockStatement (hkind : t.kind = .block)
    (h : WritesRule input tokens (Lowering.block (.ofTokens tokens)) p q t) :
    WritesStatement input tokens p q t := by
  refine writesStatement_of_rule _ (fun limit b a bound => ?_) h
  unfold Lowering.statement
  rw [hkind]

theorem writesStatements_cons (hover : input.Over tokens) (ht : WritesStatement input tokens p m t)
    (hq : q ≤ input.significant.size) (hmq : m ≤ q)
    (hts : WritesStatements input tokens m q ts) :
    WritesStatements input tokens p q (t :: ts) := by
  intro limit n a bound hbound
  have hm := hover.afterAt_mono hq hmq
  rw [List.mapM_cons]
  refine (ht.gives limit n a bound (Nat.le_trans hm hbound)).bind fun node hnode => ?_
  exact (hts limit n a bound hbound).bind fun nodes hnodes => gives_ok (hnode.spells hnodes)

/-! What several rules have in common. -/

section
variable {k₁ k₂ : Kind} {m' e₁ e₂ e₃ o : Nat} {u : Concrete} {leeway : Leeway}
  {rule : Builder → Concrete → Ancestry → Lowered Node}

/-- A mark that has to be there, and what comes after it. -/
theorem Expects.followedBy {A : Prop} (h : Expects input k m q e₁) (he : e₁ + e₂ = 0)
    (ih : e₂ = 0 → q ≤ input.significant.size → A) : q = m + 1 ∧ input.Sees m k ∧ A := by
  obtain ⟨hsees, rfl⟩ := h.sees (by omega)
  exact ⟨rfl, hsees, ih (by omega) hsees.lt_size⟩

/-- Two marks that have to be there, and what stands between them. -/
theorem Expects.around {A : Prop} (hopen : Expects input k₁ p m e₁)
    (hclose : Expects input k₂ m' q e₃) (he : e₁ + e₂ + e₃ = 0)
    (ih : e₂ = 0 → m ≤ input.significant.size → A) :
    m = p + 1 ∧ q = m' + 1 ∧ input.Sees p k₁ ∧ input.Sees m' k₂ ∧ A := by
  obtain ⟨rfl, hopen, h⟩ := hopen.followedBy (by omega) ih
  obtain ⟨hclose', rfl⟩ := hclose.sees (by omega)
  exact ⟨rfl, rfl, hopen, hclose', h⟩

/-- Two marks that have to be there and a list between them, after which nothing but what the list
has between its trees may stand before the closing mark. -/
theorem Derives.enclosed (hts : Derives input r m m' e₂ ts) (hover : input.Over tokens)
    (he : e₁ + e₂ + e₃ = 0) (hopen : Expects input k₁ p m e₁) (hclose : Expects input k₂ m' q e₃)
    (hr : r.spare? = some k)
    (ih : e₂ = 0 → m ≤ input.significant.size → r.Writes input tokens m m' ts) :
    m = p + 1 ∧ q = m' + 1 ∧ input.Sees p k₁ ∧ input.Sees m' k₂ ∧
      input.Follows k (Lowering.afterLast ts (input.indexAt p + 1)) m' ∧
      r.Writes input tokens (p + 1) m' ts := by
  obtain ⟨rfl, rfl, hopen, hclose, h⟩ := hopen.around hclose he ih
  have hstart := (hover.meets_succ hopen.lt_size).follows (k := k)
  exact ⟨rfl, rfl, hopen, hclose, hts.follows hover (by omega) hopen.lt_size hr hstart, h⟩

/-- One tree more before a list with commas, the last of which may be spare. -/
theorem Derives.writesSpareRow (hts : Derives input r (m + 1) q e ts) (cuts : input.Cuts tokens)
    (he : e = 0) (hr : r.spare? = some .comma) (hcomma : input.Sees m .comma)
    (hmeets : input.Meets t.after m)
    (ht : ∀ limit n a, Gives (Precedes input tokens leeway p m)
      (rule (Builder.within (.ofTokens tokens) limit n) t a))
    (hrow : WritesSpareRow input tokens leeway rule (m + 1) q ts) :
    WritesSpareRow input tokens leeway rule p q (t :: ts) := by
  refine writesSpareRow_cons cuts ht hmeets hcomma (hts.fits cuts.toOver) (fun hnil => ?_) hrow
  subst hnil
  exact hts.eq_of_nil he hr

/-- The end of a statement that reports nothing. -/
theorem EndsStatement.of_sum (h : EndsStatement input m q e₂) (he : e₁ + e₂ = 0) :
    EndsStatement input m q 0 := by
  obtain rfl : e₂ = 0 := Nat.eq_zero_of_add_eq_zero_left he
  exact h

/-- A loop of any of the three kinds. -/
theorem writes_loop (cuts : input.Cuts tokens) {each iterates : Bool}
    (ho : o = if each then p + 2 else p + 1)
    (whole : input.Stands p q (input.nodeAt q
      (if each && iterates then .forEach else .forKeyword) (input.indexAt p) [t, u]))
    (hsees : input.Sees p .forKeyword) (heach : each = true → input.Sees (p + 1) .eachKeyword)
    (hiterates : each = true → iterates = true) (hopen : input.Sees o .openParen)
    (ht : (Rule.forHead iterates).Writes input tokens (o + 1) m [t])
    (hclose : input.Sees m .closeParen) (hu : WritesStatement input tokens (m + 1) q u) :
    WritesStatement input tokens p q (input.nodeAt q
      (if each && iterates then .forEach else .forKeyword) (input.indexAt p) [t, u]) := by
  subst ho
  cases each <;> cases iterates
  · obtain ⟨_, _, _, _, _, hsteps⟩ := List.forall_mem_singleton.mp ht _ hclose
    exact writes_for cuts whole hsees hopen hsteps hclose hu
  · obtain ⟨_, _, _, hiteration⟩ := List.forall_mem_singleton.mp ht
    exact writes_forIn cuts whole hsees hopen hiteration hclose hu
  · cases hiterates rfl
  · obtain ⟨_, _, _, hiteration⟩ := List.forall_mem_singleton.mp ht
    exact writes_forEachIn cuts whole hsees (heach rfl) hopen hiteration hclose hu

end

/-- By induction on the derivation: a node is written if its parts are. -/
theorem Derives.writes (cuts : input.Cuts tokens) (h : Derives input r p q e ts) (he : e = 0)
    (hp : p ≤ input.significant.size) : r.Writes input tokens p q ts := by
  have hover := cuts.toOver
  have all {P : Concrete → Prop} {t : Concrete} (h : P t) : ∀ u ∈ [t], P u :=
    List.forall_mem_singleton.mpr h
  have only {P : Concrete → Prop} {t : Concrete} (h : ∀ u ∈ [t], P u) : P t :=
    List.forall_mem_singleton.mp h
  have node {r : Rule} {p q e : Nat} {k : Kind} {us : List Concrete} (hr : r.reads = true)
      (he : e = 0) (hp : p ≤ input.significant.size)
      (h : Derives input r p q e [input.nodeAt q k (input.indexAt p) us]) :=
    h.stands_node hover he hp hr
  have tree {r : Rule} {p q e : Nat} {t : Concrete} (hr : r.isExact = true) (he : e = 0)
      (hp : p ≤ input.significant.size) (h : Derives input r p q e [t]) :=
    h.stands_tree hover he hp hr
  induction h with
  | primaryOf _ ih | memberOf _ ih | trailingOf _ ih | unaryOf _ ih | binaryOf _ ih
  | conditionalOf _ ih | assignmentOf _ ih | expressionOf _ ih | initialOf _ ih
  | initialVariables _ ih => exact ih he hp
  | missing | lacking | xmlBroken | invalid | strayTokens => cases he
  -- Rows.
  | one _ ih => exact fun _ => writesRow_one (ih he hp)
  | more hd hcomma hts ih₁ ih₂ =>
    intro hr
    exact writesRow_more hover (ih₁ (by omega) hp) ((tree hr (by omega) hp hd).meets hover) hcomma
      (hts.fits hover) hts.separated_ne_nil (ih₂ (by omega) hcomma.lt_size hr)
  | noItems hopen hclose =>
    intro _
    have whole := node (r := .listed .assignment) rfl he hp (.noItems hopen hclose)
    obtain ⟨hopen', rfl⟩ := hopen.sees (by omega)
    obtain ⟨hclose', rfl⟩ := hclose.sees (by omega)
    exact all (writes_listed cuts whole rfl hopen' hclose' (whole.lt_after hover (by omega))
      (hover.meets_succ hopen'.lt_size).follows writesRow_nil)
  | someItems hopen hts hclose ih =>
    intro hr
    have whole := node rfl he hp (.someItems hopen hts hclose)
    obtain ⟨rfl, rfl, hopen, hclose, hfollows, hrow⟩ :=
      hts.enclosed hover he hopen hclose (if_pos hr) ih
    have hfirst := Lowering.firstStart_gt (hts.fits hover) hopen (whole.lt_after hover whole.lt)
    exact all (writes_listed cuts whole rfl hopen hclose hfirst hfollows (hrow hr))
  | nothing => exact .inl ⟨rfl, rfl⟩
  | something _ ih => exact .inr ⟨_, rfl, ih he hp⟩
  -- Operands.
  | leaf hsees htag => exact writes_of_leaf cuts hsees htag
  | present hsees => exact ⟨rfl, hsees, rfl⟩
  | paren hopen hd hclose ih =>
    have whole := node rfl he hp (.paren hopen hd hclose)
    obtain ⟨-, rfl, -, hclose, ht⟩ := Expects.around (.here hopen) hclose (by omega) ih
    exact all (writes_paren cuts whole hopen (only ht) hclose)
  | array hopen hts hclose ih =>
    have whole := node rfl he hp (.array hopen hts hclose)
    obtain ⟨-, rfl, -, hclose, hfollows, hrow⟩ :=
      hts.enclosed hover (by omega) (.here hopen) hclose rfl ih
    exact all (writesExpression_of_rule _ (fun _ _ _ => rfl)
      (writes_array cuts whole hopen hclose hfollows hrow))
  | noMoreItems | noMoreMembers => exact writesSpareRow_nil
  | hole hcomma hts ih =>
    refine hts.writesSpareRow cuts he rfl hcomma ?_ (gives_hole cuts hcomma) (ih he hcomma.lt_size)
    rw [Concrete.after_absent]
    exact hover.meets_indexAt hcomma.lt_size
  | lastItem _ ih => exact writesSpareRow_last cuts (gives_item (only (ih he hp)))
  | item hd hcomma hts ih₁ ih₂ =>
    have ht := only (ih₁ (by omega) hp)
    exact hts.writesSpareRow cuts (by omega) rfl hcomma (ht.stands.around.meets hover)
      (fun limit n a x hx => (gives_item ht limit n a x hx).precedes cuts _)
      (ih₂ (by omega) hcomma.lt_size)
  | object hopen hts hclose ih =>
    have whole := node rfl he hp (.object hopen hts hclose)
    obtain ⟨-, rfl, -, hclose, hfollows, hrow⟩ :=
      hts.enclosed hover (by omega) (.here hopen) hclose rfl ih
    exact all (writesExpression_of_rule _ (fun _ _ _ => rfl)
      (writes_object cuts whole hopen hclose hfollows hrow))
  | lastMember _ ih => exact writesSpareRow_last cuts (only (ih he hp)).gives
  | nextMember hd hcomma hts ih₁ ih₂ =>
    have ht := only (ih₁ (by omega) hp)
    exact hts.writesSpareRow cuts (by omega) rfl hcomma (ht.stands.meets hover)
      (fun limit n a x hx => (ht.gives limit n a x hx).precedes cuts _)
      (ih₂ (by omega) hcomma.lt_size)
  | propertyInit hn hcolon hd ih₁ ih₂ =>
    have whole := node rfl he hp (.propertyInit hn hcolon hd)
    obtain ⟨rfl, hcolon, hvalue⟩ := hcolon.followedBy (by omega) ih₂
    exact all (writes_propertyInit cuts whole (only (ih₁ (by omega) hp)) hcolon (only hvalue))
  | getter hsees hn hopen hclose hd ih₁ ih₂ =>
    have whole := node rfl he hp (.getter hsees hn hopen hclose hd)
    obtain ⟨hopen', rfl⟩ := hopen.sees (by omega)
    obtain ⟨rfl, hclose, hbody⟩ := hclose.followedBy (by omega) ih₂
    exact all (writes_getter cuts whole hsees (only (ih₁ (by omega) hsees.lt_size)) hopen' hclose
      (only hbody).2)
  | setter hsees hn hopen hx hclose hd ih₁ ih₂ ih₃ =>
    have whole := node rfl he hp (.setter hsees hn hopen hx hclose hd)
    obtain ⟨rfl, hopen, hargument⟩ := hopen.followedBy (by omega) ih₂
    obtain ⟨rfl, rfl, _, hargument⟩ := only hargument
    obtain ⟨rfl, hclose, hbody⟩ := hclose.followedBy (by omega) ih₃
    exact all (writes_setter cuts whole hsees (only (ih₁ (by omega) hsees.lt_size)) hopen
      hargument hclose (only hbody).2)
  | @xml p _ _ _ hfirst hts ih =>
    have hbrace : ¬input.Sees p .openBrace := by
      rcases hfirst with hfirst | hfirst <;> exact hfirst.not_other (by decide)
    exact all (writesExpression_of_rule _ (fun _ _ _ => rfl) (writes_xml cuts
      (node rfl he hp (.xml hfirst hts)) hbrace (hts.sorted_eq hover he hp rfl) (ih he hp)))
  | xmlText hsees _ ih => exact writesFragments_text cuts hsees (ih he hsees.lt_size)
  | xmlLast hsees => exact writesFragments_last hsees
  | xmlEmbedded hopen hd hclose _ ih₁ ih₂ =>
    obtain ⟨rfl, hclose, hts⟩ := hclose.followedBy (by omega) ih₂
    have hkind := hd.isForeign_eq_false rfl _ List.mem_cons_self
    refine writesFragments_embedded cuts hopen (only (ih₁ (by omega) hopen.lt_size)) ?_ hclose hts
    rintro (h | h) <;> rw [h] at hkind <;> cases hkind
  | functionOperand _ ih =>
    obtain ⟨hkind, _, h⟩ := only (ih he hp)
    exact all (writes_functionOperand hkind h)
  -- Member accesses, calls and operators.
  | new hsees hd ih =>
    exact all (writes_new cuts (node rfl he hp (.new hsees hd)) hsees
      (only (ih he hsees.lt_size)))
  | newCall hsees hd hopen ha ih₁ ih₂ =>
    have hlist := only (ih₂ (by omega) (Nat.le_of_lt hopen.lt_size) rfl)
    exact all (writes_new cuts (node rfl he hp (.newCall hsees hd hopen ha)) hsees
      (writes_call cuts (tree rfl he hsees.lt_size (.call hd hopen ha))
        (only (ih₁ (by omega) hsees.lt_size)) (hlist.mono fun _ _ _ h => only h)))
  | access hd hsees htag hn ih₁ ih₂ =>
    exact all (writes_access cuts (tree rfl he hp (.access hd hsees htag hn)) htag
      (only (ih₁ (by omega) hp)) hsees (only (ih₂ (by omega) hsees.lt_size)))
  | index hd hopen hu hclose ih₁ ih₂ =>
    have whole := tree rfl he hp (.index hd hopen hu hclose)
    obtain ⟨-, rfl, -, hclose, hu⟩ := Expects.around (.here hopen) hclose (by omega) ih₂
    exact all (writes_index cuts whole (only (ih₁ (by omega) hp)) hopen (only hu) hclose)
  | call hd hopen ha ih₁ ih₂ =>
    have hlist := only (ih₂ (by omega) (Nat.le_of_lt hopen.lt_size) rfl)
    exact all (writes_call cuts (tree rfl he hp (.call hd hopen ha)) (only (ih₁ (by omega) hp))
      (hlist.mono fun _ _ _ h => only h))
  | trailed hd hsees htag hbroken ih =>
    exact all (writes_trailing cuts (tree rfl he hp (.trailed hd hsees htag hbroken))
      (only (ih he hp)) hsees htag hbroken)
  | leading hsees htag hd ih =>
    exact all (writes_leading cuts (node rfl he hp (.leading hsees htag hd)) hsees htag
      (only (ih he hsees.lt_size)))
  | operate hd hsees hprecedence hlevel hleft hu ih₁ ih₂ =>
    have whole := tree rfl he hp (.operate hd hsees hprecedence hlevel hleft hu)
    exact all (writes_binary cuts whole (isBinaryOperator_of_precedence hprecedence)
      (only (ih₁ (by omega) hp)) hsees (only (ih₂ (by omega) hsees.lt_size)))
  | assign hd hsees hoperator hu ih₁ ih₂ =>
    have whole := tree rfl he hp (.assign hd hsees hoperator hu)
    exact all (writes_binary cuts whole (isBinaryOperator_of_assignment hoperator)
      (only (ih₁ (by omega) hp)) hsees (only (ih₂ (by omega) hsees.lt_size)))
  | choose hd hquestion hu hcolon hv ih₁ ih₂ ih₃ =>
    have whole := tree rfl he hp (.choose hd hquestion hu hcolon hv)
    obtain ⟨rfl, hcolon, hother⟩ := hcolon.followedBy (by omega) ih₃
    exact all (writes_conditional cuts whole (only (ih₁ (by omega) hp)) hquestion
      (only (ih₂ (by omega) hquestion.lt_size)) hcolon (only hother))
  | yield hsees hts hbroken ih =>
    have whole := node rfl he hp (.yield hsees hts hbroken)
    rcases ih he hsees.lt_size with ⟨rfl, rfl⟩ | ⟨_, rfl, ht⟩
    · exact all (writes_bareYield cuts whole hsees)
    · exact all (writes_yield cuts whole hsees (only ht) (hbroken (List.cons_ne_nil _ _)))
  | commas hd hcomma hts ih₁ ih₂ =>
    have ht := only (ih₁ (by omega) hp)
    have hrow := (ih₂ (by omega) hcomma.lt_size rfl).mono fun _ _ _ h => only h
    exact all (writes_comma cuts (tree rfl he hp (.commas hd hcomma hts)) (writesRow_more hover ht
      (ht.stands.meets hover) hcomma (hts.fits hover) hts.separated_ne_nil hrow))
  -- Statement lists, blocks and functions.
  | noMoreStatements => exact fun _ _ _ _ _ => gives_ok .nil
  | nextStatement hd _ hts ih₁ ih₂ =>
    have hm := hd.forward.2 hp
    exact writesStatements_cons hover (only (ih₁ (by omega) hp)) (hts.forward.2 hm) hts.le
      (ih₂ (by omega) hm)
  | skipped hd => exact absurd (hd.lt (by omega) rfl) (Nat.lt_irrefl _)
  | block hopen hts hclose ih =>
    have whole := node rfl he hp (.block hopen hts hclose)
    obtain ⟨rfl, rfl, hopen, hclose, hfollows, hrow⟩ :=
      hts.enclosed hover he hopen hclose rfl ih
    exact all ⟨rfl, writes_block cuts whole rfl hopen hclose hfollows hrow⟩
  | named hsees hname hk ha hd ih₁ ih₂ =>
    have whole := node (r := .function true) rfl he hp (.named hsees hname hk ha hd)
    have hlist := only (ih₁ (by omega) hname.lt_size rfl)
    exact all ⟨rfl, fun _ => rfl, writes_namedFunction cuts whole hsees hname
      (hlist.mono fun _ _ _ h => only h) (only (ih₂ (by omega) hlist.stands.le_size)).2⟩
  | @unnamed _ _ _ _ _ _ _ isStatement hsees ha hd ih₁ ih₂ =>
    have whole := node (r := .function isStatement) rfl he hp (.unnamed hsees ha hd)
    have hlist := only (ih₁ (by omega) hsees.lt_size rfl)
    refine all ⟨rfl, fun h => ?_, writes_unnamedFunction cuts whole hsees
      (hlist.mono fun _ _ _ h => only h) (only (ih₂ (by omega) hlist.stands.le_size)).2⟩
    rw [if_pos h] at he
    omega
  -- Declarations.
  | declaration hsees hts ih =>
    exact all (writes_variables cuts (node rfl he hp (.declaration hsees hts)) hsees
      ((ih he hsees.lt_size rfl).mono fun _ _ _ h => only h))
  | declared _ ih =>
    obtain ⟨rfl, rfl, _, hsees⟩ := only (ih he hp)
    exact all (writes_declarator_name cuts hsees)
  | initialized hd hequals hu ih₁ ih₂ =>
    have whole := tree rfl he hp (.initialized hd hequals hu)
    obtain ⟨rfl, rfl, _, hsees⟩ := only (ih₁ (by omega) hp)
    exact all (writes_declarator cuts whole hsees hequals
      (only (ih₂ (by omega) hequals.lt_size)))
  -- Parts of statements.
  | condition hopen _ hclose ih =>
    obtain ⟨rfl, rfl, hopen, hclose, ht⟩ := hopen.around hclose he ih
    exact all ⟨hopen, _, rfl, only ht, hclose⟩
  | noElse => exact .inl ⟨rfl, rfl⟩
  | orElse hsees _ ih => exact .inr ⟨_, rfl, hsees, only (ih he hsees.lt_size)⟩
  | noClause => exact all fun _ hsees => writesClause_empty cuts hsees
  | clauseOf _ ih => exact all fun _ _ => writesClause_of_expression cuts (only (ih he hp))
  | steps ht hfirst hu hsecond hv ih₁ ih₂ ih₃ =>
    obtain ⟨rfl, hfirst, hu⟩ := hfirst.followedBy (by omega) ih₂
    obtain ⟨rfl, hsecond, hv⟩ := hsecond.followedBy (by omega) ih₃
    exact all fun _ hsees => ⟨_, _, _, _, _, rfl, rfl, rfl, only (ih₁ (by omega) hp) _ hfirst,
      hfirst, only hu _ hsecond, hsecond, only hv _ hsees⟩
  | iterate ht hsees hu ih₁ ih₂ =>
    exact all ⟨_, _, _, rfl, rfl, rfl, only (ih₁ (by omega) hp), hsees,
      only (ih₂ (by omega) hsees.lt_size)⟩
  | caseClause hsees ht hcolon hts ih₁ ih₂ =>
    have whole := node rfl he hp (.caseClause hsees ht hcolon hts)
    obtain ⟨rfl, hcolon, hrow⟩ := hcolon.followedBy (by omega) ih₂
    exact all (writes_caseClause cuts whole hsees (only (ih₁ (by omega) hsees.lt_size)) hcolon
      hts hrow)
  | defaultClause hsees hcolon hts ih =>
    have whole := node rfl he hp (.defaultClause hsees hcolon hts)
    obtain ⟨rfl, hcolon, hrow⟩ := hcolon.followedBy he ih
    exact all (writes_defaultClause cuts whole rfl hsees hcolon hts hrow)
  | noMoreClauses => exact writesInTurn_nil
  | nextClause hd _ ih₁ ih₂ =>
    exact writesInTurn_cons (only (ih₁ (by omega) hp)) (ih₂ (by omega) (hd.forward.2 hp))
  | filter hsees hd ih =>
    exact all ⟨rfl, writes_exceptionFilter cuts (node rfl he hp (.filter hsees hd)) hsees
      (only (ih he hsees.lt_size))⟩
  | catchClause hsees hopen hx hfs hclose hd ih₁ ih₂ ih₃ =>
    have whole := node rfl he hp (.catchClause hsees hopen hx hfs hclose hd)
    obtain ⟨rfl, hopen, hname⟩ := hopen.followedBy (by omega) ih₁
    obtain ⟨rfl, rfl, _, hname⟩ := only hname
    obtain ⟨rfl, hclose, hbody⟩ := hclose.followedBy (by omega) ih₃
    obtain ⟨hblock, hbody⟩ := only hbody
    rcases ih₂ (by omega) hname.lt_size with ⟨rfl, rfl⟩ | ⟨_, rfl, hfilter⟩
    · exact all ⟨rfl, writes_catch cuts whole hsees hopen hname hclose hblock hbody⟩
    · exact all ⟨rfl, writes_filteredCatch cuts whole hsees hopen hname (only hfilter).1
        (only hfilter).2 hclose hbody⟩
  | noMoreCatches => exact fun _ _ h => h
  | nextCatch hd _ ih₁ ih₂ =>
    intro s us hus
    obtain ⟨hkind, ht⟩ := only (ih₁ (by omega) hp)
    exact writesTryClauses_catch hkind ht (ih₂ (by omega) ht.stands.le_size s us hus)
  | finalClause hsees hd ih =>
    exact all ⟨rfl, writes_finallyClause cuts (node rfl he hp (.finalClause hsees hd)) hsees
      (only (ih he hsees.lt_size)).2⟩
  -- Statements.
  | blockStatement _ ih =>
    obtain ⟨hkind, ht⟩ := only (ih he hp)
    exact all (writes_blockStatement hkind ht)
  | emptyStatement hsees => exact all (writes_emptyStatement cuts hsees)
  | functionStatement _ ih =>
    obtain ⟨hkind, hnamed, ht⟩ := only (ih he hp)
    exact all (writes_functionStatement hkind (hnamed rfl) ht)
  | variableStatement hd hend ih =>
    have hkind := hd.isForeign_eq_false rfl _ List.mem_cons_self
    refine all (writes_expressionStatement cuts (isStatementTag_of_isForeign hkind) ?_
      (only (ih (by omega) hp)) (hend.of_sum he))
    cases hd with
    | declaration => nofun
    | leaf _ htag => cases htag
    | missing => omega
  | expressionStatement hfunction hd _ hend ih =>
    have hkind := hd.isForeign_eq_false rfl _ List.mem_cons_self
    have hnot := hd.sees_function (by omega) rfl _ List.mem_cons_self
    exact all (writes_expressionStatement cuts (isStatementTag_of_isForeign hkind)
      (fun h => hfunction (hnot h)) (only (ih (by omega) hp)) (hend.of_sum he))
  | nullStatement hd hempty =>
    rw [(tree rfl he hp hd).isEmpty_eq_false hover] at hempty
    cases hempty
  | constStatement hsees hts hend ih =>
    have whole := node rfl he hp (.constStatement hsees hts hend)
    have hrow := (ih (by omega) hsees.lt_size rfl).mono fun _ _ _ h => only h
    have hfollows := hts.follows hover (by omega) hsees.lt_size rfl
      (hover.meets_succ hsees.lt_size).follows
    exact all (writes_constStatement cuts whole hsees hfollows hrow (hend.of_sum he))
  | ifStatement hsees ht hu hv ih₁ ih₂ ih₃ =>
    have whole := node rfl he hp (.ifStatement hsees ht hu hv)
    have hm := ht.forward.2 hsees.lt_size
    have hthen := only (ih₂ (by omega) hm)
    have hcondition := only (ih₁ (by omega) hsees.lt_size)
    rcases ih₃ (by omega) (hu.forward.2 hm) with ⟨rfl, rfl⟩ | ⟨_, rfl, helse, hother⟩
    · exact all (writes_if cuts whole hsees hcondition hthen)
    · exact all (writes_ifElse cuts whole hsees hcondition hthen helse hother hv.le)
  | doStatement hsees ht hwhile hu hend ih₁ ih₂ =>
    have whole := node rfl he hp (.doStatement hsees ht hwhile hu hend)
    obtain ⟨rfl, hwhile, hcondition⟩ := hwhile.followedBy (by omega) ih₂
    exact all (writes_do cuts whole hsees (only (ih₁ (by omega) hsees.lt_size)) hwhile
      (only hcondition) hend)
  | whileStatement hsees ht hu ih₁ ih₂ =>
    have whole := node rfl he hp (.whileStatement hsees ht hu)
    exact all (writes_while cuts whole hsees (only (ih₁ (by omega) hsees.lt_size))
      (only (ih₂ (by omega) (ht.forward.2 hsees.lt_size))))
  | withStatement hsees ht hu ih₁ ih₂ =>
    have whole := node rfl he hp (.withStatement hsees ht hu)
    exact all (writes_with cuts whole hsees (only (ih₁ (by omega) hsees.lt_size))
      (only (ih₂ (by omega) (ht.forward.2 hsees.lt_size))))
  | @forStatement _ each _ _ iterates _ _ _ _ _ _ _ _ hsees heach hopen ht hclose hu ih₁ ih₂ =>
    have whole := node rfl he hp (.forStatement hsees heach hopen ht hclose hu)
    have hiterates : each = true → iterates = true := by
      rintro rfl
      cases iterates
      · cases he
      · rfl
    obtain ⟨rfl, hopen, hhead⟩ := hopen.followedBy (by omega) ih₁
    obtain ⟨rfl, hclose, hbody⟩ := hclose.followedBy (by omega) ih₂
    exact all (writes_loop cuts rfl whole hsees heach hiterates hopen hhead hclose (only hbody))
  | jumpStatement hsees hk hts hbroken hend ih =>
    have whole := node rfl he hp (.jumpStatement hsees hk hts hbroken hend)
    rcases ih (by omega) hsees.lt_size with ⟨rfl, rfl⟩ | ⟨_, rfl, ht⟩
    · exact all (writes_jump cuts whole hk hsees (hend.of_sum he))
    · obtain ⟨rfl, rfl, _, hlabel⟩ := only ht
      exact all (writes_jumpTo cuts whole hk hsees hlabel (hbroken (List.cons_ne_nil _ _))
        (hend.of_sum he))
  | returnStatement hsees hts hbroken hend ih =>
    have whole := node rfl he hp (.returnStatement hsees hts hbroken hend)
    rcases ih (by omega) hsees.lt_size with ⟨rfl, rfl⟩ | ⟨_, rfl, ht⟩
    · exact all (writes_return cuts whole hsees (hend.of_sum he))
    · exact all (writes_returnValue cuts whole hsees (only ht) (hbroken (List.cons_ne_nil _ _))
        (hend.of_sum he))
  | throwStatement hsees hd hend ih =>
    exact all (writes_throwStatement cuts (node rfl he hp (.throwStatement hsees hd hend)) hsees
      (only (ih (by omega) hsees.lt_size)) (hend.of_sum he))
  | switchStatement hsees ht hopen hts hclose ih₁ ih₂ =>
    have whole := node rfl he hp (.switchStatement hsees ht hopen hts hclose)
    obtain ⟨rfl, rfl, hopen, hclose, hrow⟩ := hopen.around hclose (by omega) ih₂
    exact all (writes_switch cuts whole hsees (only (ih₁ (by omega) hsees.lt_size)) hopen hclose
      hts (by omega) hrow)
  | tryStatement hsees hd hts hus ih₁ ih₂ ih₃ =>
    have whole := node rfl he hp (.tryStatement hsees hd hts hus)
    obtain ⟨-, hbody⟩ := only (ih₁ (by omega) hsees.lt_size)
    have hm := hts.forward.2 hbody.stands.le_size
    refine all (writes_try cuts whole hsees hbody (ih₂ (by omega) hbody.stands.le_size _ _ ?_))
    rcases ih₃ (by omega) hm with ⟨rfl, rfl⟩ | ⟨_, rfl, hfinal⟩
    · exact writesTryClauses_nil
    · exact writesTryClauses_finally (only hfinal).1 (only hfinal).2
  | namespaceStatement hsees hxml hns hes hd hend ih₁ ih₂ ih₃ =>
    have whole := node rfl he hp (.namespaceStatement hsees hxml hns hes hd hend)
    obtain ⟨rfl, hspace, rfl⟩ := ih₁ (by omega) hxml.lt_size
    obtain ⟨rfl, hequals, rfl⟩ := ih₂ (by omega) hspace.lt_size
    exact all (writes_namespace cuts whole hsees hxml hspace hequals
      (only (ih₃ (by omega) hequals.lt_size)) (hend.of_sum he))
  | labelledStatement hsees hk hcolon hd ih =>
    exact all (writes_labelled cuts (node rfl he hp (.labelledStatement hsees hk hcolon hd)) hsees
      hcolon (only (ih he hcolon.lt_size)))

/-- The significant tokens of a source. -/
def Input.ofSource [Alphabet] (source : String) (xmlLiterals : Bool) : Input :=
  .ofTokens (tokenize source xmlLiterals).tokens (.ofText source) Input.defaultLimit

theorem Input.ofSource_cuts [Alphabet] (source : String) (xmlLiterals : Bool) :
    (ofSource source xmlLiterals).Cuts (tokenize source xmlLiterals).tokens where
  toOver := ofTokens_over _ _ _
  length_pos t ht := by
    have hne := (tokenize_faithful source xmlLiterals).text_ne_empty t ht
    exact Nat.pos_of_ne_zero fun hzero => hne (String.utf8ByteSize_eq_zero_iff.mp hzero)
  isToken t ht := ((tokenize_faithful source xmlLiterals).kind_isToken t ht).1
  spelled t ht := by
    obtain ⟨i, hi⟩ := Array.mem_iff_getElem?.mp ht
    exact (tokenize_wellMade hi).2.2.2

/-- The script of a tree. -/
theorem ofConcrete_eq_ok {maxDepth : Nat} {tree : Concrete} {script : Script}
    (h : Script.ofConcrete tokens maxDepth (some tree) = .ok script) :
    ∃ statements, Lowering.statements (.ofTokens tokens) maxDepth tree = .ok statements ∧
      script = ⟨⟨0, (Offsets.ofTokens tokens).sourceLength⟩, statements,
        TokenTable.comments (.ofTokens tokens)⟩ := by
  unfold Script.ofConcrete at h
  dsimp only at h
  split at h
  · cases hstatements : Lowering.statements (.ofTokens tokens) maxDepth tree with
    | error error =>
      rw [hstatements] at h
      cases h
    | ok statements =>
      rw [hstatements] at h
      cases h
      exact ⟨statements, rfl, rfl⟩
  · cases h

/-- Statements that the grammar reads without a report are written with the tokens of the list. -/
theorem statements_program_spells {lines : LineMap} {limit maxDepth : Nat} {tree : Concrete}
    {c : Cursor} {statements : List Node} (cuts : (Input.ofTokens tokens lines limit).Cuts tokens)
    (hread : Cursor.initial.program (.ofTokens tokens lines limit) = (.ok tree, c))
    (hclean : c.problems = #[])
    (h : Lowering.statements (.ofTokens tokens) maxDepth tree = .ok statements) :
    Spells (.ofTokens tokens lines limit) tokens 0
      (Input.ofTokens tokens lines limit).significant.size (statements.map .node) := by
  obtain ⟨ts, rfl, hts⟩ := program_derives hread
  have hwrites : WritesStatements _ tokens 0 _ ts :=
    hts.writes cuts (by rw [hclean]; rfl) (Nat.zero_le _)
  exact hwrites maxDepth _ .root _
    (Nat.le_trans (cuts.afterAt_le_indexAt _) (cuts.indexAt_le_count _)) statements h

/-- Why no script can be built from a source: the grammar halts, or the tree that it reads cannot be
lowered. -/
inductive Unbuildable [Alphabet] (source : String) (options : ParseOptions) :
    BuildError → Prop where
  | halted {halt : Halt} {c : Cursor} :
      Cursor.initial.program (.ofSource source options.xmlLiterals) = (.error halt, c) →
      Unbuildable source options (.grammar halt)
  | unlowered {root : Concrete} {c : Cursor} {error : LoweringError} :
      Cursor.initial.program (.ofSource source options.xmlLiterals) = (.ok root, c) →
      Script.ofConcrete (tokenize source options.xmlLiterals).tokens options.maxDepth
        (some root) = .error error →
      Unbuildable source options (.lowering error)

/-- The problems of the tokens of a source, and then those of the grammar. -/
def syntaxProblems [Alphabet] (source : String) (options : ParseOptions) : Diagnostics :=
  (tokenize source options.xmlLiterals).diagnostics ++
    (Cursor.initial.program (.ofSource source options.xmlLiterals)).2.problems

/-- What parsing can come to: the tree that the grammar reads is lowered to the script, or nothing
is found and the reason for it is the last problem. -/
theorem parse_cases [Alphabet] (source : String) (options : ParseOptions) :
    (∃ root c, Cursor.initial.program (.ofSource source options.xmlLiterals) = (.ok root, c) ∧
        Script.ofConcrete (tokenize source options.xmlLiterals).tokens options.maxDepth
          (some root) = .ok (parse source options).script ∧
        (parse source options).diagnostics = syntaxProblems source options) ∨
      ∃ error, Unbuildable source options error ∧ parse source options =
        ⟨.empty (Offsets.ofTokens (tokenize source options.xmlLiterals).tokens).sourceLength,
          (syntaxProblems source options).push (.ofMessage .buildFailed [error.message])⟩ := by
  unfold parse build syntaxProblems
  cases hread : Cursor.initial.program (.ofSource source options.xmlLiterals) with
  | mk tree c =>
    unfold Input.ofSource at hread
    dsimp only
    rw [hread]
    cases tree with
    | error halt => exact .inr ⟨_, .halted hread, rfl⟩
    | ok root =>
      dsimp only
      cases hscript : Script.ofConcrete (tokenize source options.xmlLiterals).tokens
          options.maxDepth (some root) with
      | error error => exact .inr ⟨_, .unlowered hread hscript, rfl⟩
      | ok script => exact .inl ⟨root, c, rfl, hscript, rfl⟩

/-- Parsing reports nothing only if a tree is read without a report and lowered to the script. -/
theorem parse_of_no_diagnostics [Alphabet] {source : String} {options : ParseOptions}
    (h : (parse source options).diagnostics = #[]) :
    ∃ root c, Cursor.initial.program (.ofSource source options.xmlLiterals) = (.ok root, c) ∧
      c.problems = #[] ∧ Script.ofConcrete (tokenize source options.xmlLiterals).tokens
        options.maxDepth (some root) = .ok (parse source options).script := by
  obtain ⟨root, c, hread, hscript, hproblems⟩ | ⟨error, _, hparse⟩ := parse_cases source options
  · rw [h, syntaxProblems, hread] at hproblems
    exact ⟨root, c, hread, (Array.append_eq_empty_iff.mp hproblems.symm).2, hscript⟩
  · rw [hparse] at h
    exact absurd h (by simp)

/-- A script that is written with the tokens of its source, from the first to the last. -/
structure WrittenScript [Alphabet] (source : String) (xmlLiterals : Bool) (script : Script) :
    Prop where
  spells : Spells (.ofSource source xmlLiterals) (tokenize source xmlLiterals).tokens 0
    (Input.ofSource source xmlLiterals).significant.size (script.statements.map .node)
  range_eq : script.range =
    ⟨0, (Offsets.ofTokens (tokenize source xmlLiterals).tokens).sourceLength⟩
  comments_eq : script.comments =
    TokenTable.comments (.ofTokens (tokenize source xmlLiterals).tokens)

theorem parse_writtenScript [Alphabet] {source : String} {options : ParseOptions}
    (h : (parse source options).diagnostics = #[]) :
    WrittenScript source options.xmlLiterals (parse source options).script := by
  obtain ⟨root, c, hread, hclean, hscript⟩ := parse_of_no_diagnostics h
  obtain ⟨statements, hstatements, heq⟩ := ofConcrete_eq_ok hscript
  have hspells := statements_program_spells (Input.ofSource_cuts ..) hread hclean hstatements
  rw [heq]
  exact ⟨hspells, rfl, rfl⟩

end ScriptTree
