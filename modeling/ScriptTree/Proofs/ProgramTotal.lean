import ScriptTree.Proofs.StatementReads
import ScriptTree.Proofs.StatementTotal

/-!
Lowering whole scripts. The tree that the grammar builds of a token list is always lowered, also
when tokens are missing or too many; only the limit on depth may stop it.
-/
namespace ScriptTree

open Lowered

/-- Rules whose trees are lowered as expressions. -/
def Rule.buildsExpression : Rule → Bool
  | .expression | .assignment | .conditional | .binary _ | .unary | .trailing | .member
  | .primary | .operand | .function _ | .variables => true
  | _ => false

theorem isBinaryOperator_of_precedence {k : Kind} {precedence : Precedence}
    (h : k.binaryPrecedence? = some precedence) : k.isBinaryOperator = true := by
  rw [Kind.isBinaryOperator, h, Option.isSome_some, Bool.or_true]

theorem isBinaryOperator_of_assignment {k : Kind} (h : k.isAssignmentOperator = true) :
    k.isBinaryOperator = true := by
  rw [Kind.isBinaryOperator, h, Bool.true_or]

/-- Tags that no expression has. -/
def Kind.isForeign (k : Kind) : Bool :=
  k.isStatementTag || k == .xmlFragment || k == .xmlFragmentEnd

theorem isForeign_of_atom {k : Kind} (h : Rule.isAtom k = true) : k.isForeign = false := by
  revert h
  cases k <;> decide

theorem isForeign_of_operator {k : Kind} (h : k.isBinaryOperator = true) :
    k.isForeign = false := by
  revert h
  cases k <;> decide

theorem isStatementTag_of_isForeign {k : Kind} (h : k.isForeign = false) :
    k.isStatementTag = false := by
  rw [Kind.isForeign, Bool.or_eq_false_iff, Bool.or_eq_false_iff] at h
  exact h.1.1

variable {input : Input} {tokens : Array Token} {limit room p q e : Nat} {r : Rule}
  {t : Concrete} {ts : List Concrete}

/-- No expression has the tag of a statement or of text in XML. -/
theorem Derives.isForeign_eq_false (h : Derives input r p q e ts)
    (hr : r.buildsExpression = true) : ∀ t ∈ ts, t.kind.isForeign = false := by
  induction h with
  | functionOperand _ ih | primaryOf _ ih | memberOf _ ih | trailingOf _ ih | unaryOf _ ih
  | binaryOf _ ih | conditionalOf _ ih | assignmentOf _ ih | expressionOf _ ih
  | invalid _ _ ih => exact ih rfl
  | leaf _ htag =>
    refine List.forall_mem_singleton.mpr ?_
    obtain rfl | ⟨rfl, rfl | hatom⟩ := leafTag?_cases htag
    · rfl
    · rfl
    · exact isForeign_of_atom hatom
  | missing htag =>
    refine List.forall_mem_singleton.mpr ?_
    obtain rfl | rfl := missingTag?_cases htag <;> rfl
  | paren | array | object | xml | new | newCall | index | call | choose | yield | commas
  | named | unnamed | declaration => exact List.forall_mem_singleton.mpr rfl
  | access _ _ htag =>
    refine List.forall_mem_singleton.mpr ?_
    unfold Rule.accessTag? at htag
    split at htag <;> cases htag <;> rfl
  | trailed _ _ htag =>
    refine List.forall_mem_singleton.mpr ?_
    unfold Production.trailingOperator? at htag
    split at htag <;> cases htag <;> rfl
  | leading _ htag =>
    refine List.forall_mem_singleton.mpr ?_
    unfold Production.leadingOperator? at htag
    split at htag <;> cases htag <;> rfl
  | operate _ _ hprecedence =>
    exact List.forall_mem_singleton.mpr
      (isForeign_of_operator (isBinaryOperator_of_precedence hprecedence))
  | assign _ _ hoperator =>
    exact List.forall_mem_singleton.mpr
      (isForeign_of_operator (isBinaryOperator_of_assignment hoperator))
  | _ => cases hr

/-- How the trees of a rule are lowered. -/
def Rule.Lowers (input : Input) (tokens : Array Token) (limit room : Nat) : Rule → Concrete → Prop
  | .identifier, t => t.kind = .identifier
  | .property, t | .members, t =>
    RuleTotal tokens limit room (Lowering.objectMember (.ofTokens tokens)) t
  | .items, t => RuleTotal tokens limit room (Lowering.item (.ofTokens tokens)) t
  | .xmlParts, t => XmlPartTotal tokens limit room t
  | .statement, t | .statements, t | .alternative, t => StatementTotal tokens limit room t
  | .block, t => t.kind = .block ∧
      RuleTotal tokens limit room (Lowering.block (.ofTokens tokens)) t
  | .declarator, t => RuleTotal tokens limit room (Lowering.declarator (.ofTokens tokens)) t
  | .forHead iterates, t => HeadTotal input tokens limit room iterates t
  | .clauses, t | .switchClause, t =>
    RuleTotal tokens limit room (Lowering.switchClause (.ofTokens tokens)) t
  | .catches, t | .catchClause, t | .finallyClause, t => TryClauseTotal tokens limit room t
  | .exceptionFilter, t => t.kind = .ifKeyword ∧
      RuleTotal tokens limit room (Lowering.exceptionFilter (.ofTokens tokens)) t
  | .required _, _ => True
  | .separated r, t | .optional r, t => r.Lowers input tokens limit room t
  | .listed r, t => ∃ q s ts, t = input.nodeAt q .arguments s ts ∧
      ts.IsChain (input.Between .comma) ∧ ∀ x ∈ ts, r.Lowers input tokens limit room x
  | _, t => ExpressionTotal tokens limit room t

theorem lowers_leaf {k tag : Kind} (hover : input.Over tokens) (hsees : input.Sees p k)
    (htag : r.leafTag? k = some tag) :
    r.Lowers input tokens limit room (input.leafAt p tag) := by
  cases r with
  | identifier =>
    simp only [Rule.leafTag?] at htag
    split at htag <;> cases htag
    rfl
  | selector | propertyName | operand => exact total_leaf hover hsees htag
  | _ => cases htag

theorem lowers_missing {tag : Kind} (htag : r.missingTag? = some tag) :
    r.Lowers input tokens limit room (input.missingAt p tag) := by
  cases r with
  | identifier =>
    cases htag
    rfl
  | selector | propertyName | operand => exact total_missing htag
  | _ => cases htag

theorem optional_length (h : Derives input (.optional r) p q e ts) : ts.length ≤ 1 := by
  cases h with
  | nothing => exact Nat.zero_le 1
  | something => exact Nat.le_refl 1
  | leaf => exact Nat.le_refl 1
  | missing => exact Nat.le_refl 1

theorem Derives.lowers (hover : input.Over tokens) (h : Derives input r p q e ts)
    (hp : p ≤ input.significant.size) :
    ∀ t ∈ ts, r.Lowers input tokens limit room t := by
  have only {r : Rule} {t : Concrete} (h : ∀ u ∈ [t], r.Lowers input tokens limit room u) :
      r.Lowers input tokens limit room t := List.forall_mem_singleton.mp h
  induction h with
  | one _ ih | something _ ih | lastMember _ ih | functionOperand _ ih | primaryOf _ ih
  | memberOf _ ih | trailingOf _ ih | unaryOf _ ih | binaryOf _ ih | conditionalOf _ ih
  | assignmentOf _ ih | expressionOf _ ih | initialOf _ ih | initialVariables _ ih => exact ih hp
  | nothing | lacking | noMoreItems | noMoreMembers | xmlBroken | noMoreStatements | noElse
  | noMoreClauses | noMoreCatches => simp
  | more hd hcomma _ ih₁ ih₂ | nextMember hd hcomma _ ih₁ ih₂ =>
    exact List.forall_mem_cons.mpr ⟨only (ih₁ hp), ih₂ hcomma.lt_size⟩
  | item _ hcomma _ ih₁ ih₂ =>
    exact List.forall_mem_cons.mpr ⟨total_item (only (ih₁ hp)), ih₂ hcomma.lt_size⟩
  | lastItem _ ih => exact List.forall_mem_singleton.mpr (total_item (only (ih hp)))
  | hole hcomma _ ih => exact List.forall_mem_cons.mpr ⟨total_hole, ih hcomma.lt_size⟩
  | noItems => exact List.forall_mem_singleton.mpr ⟨_, _, [], rfl, .nil, by simp⟩
  | someItems hopen hts _ ih =>
    have hm := hopen.forward.2 hp
    exact List.forall_mem_singleton.mpr ⟨_, _, _, rfl, hts.commas_between hover rfl hm, ih hm⟩
  | leaf hsees htag => exact List.forall_mem_singleton.mpr (lowers_leaf hover hsees htag)
  | missing htag => exact List.forall_mem_singleton.mpr (lowers_missing htag)
  | present => exact List.forall_mem_singleton.mpr trivial
  | paren hsees _ _ ih =>
    exact List.forall_mem_singleton.mpr (total_paren hover hsees (only (ih hsees.lt_size)))
  | array hsees hts _ ih =>
    have hcommas := hts.commas_between hover rfl hsees.lt_size
    exact List.forall_mem_singleton.mpr (total_array hover hsees hcommas (ih hsees.lt_size))
  | object hsees hts _ ih =>
    have hcommas := hts.commas_between hover rfl hsees.lt_size
    exact List.forall_mem_singleton.mpr (total_object hover hsees hcommas (ih hsees.lt_size))
  | propertyInit hn hcolon _ ih₁ ih₂ =>
    have hm := hcolon.forward.2 (hn.forward.2 hp)
    exact List.forall_mem_singleton.mpr (total_propertyInit (only (ih₁ hp)) (only (ih₂ hm)))
  | getter hsees hn hopen hclose _ ih₁ ih₂ =>
    have hm := hclose.forward.2 (hopen.forward.2 (hn.forward.2 hsees.lt_size))
    exact List.forall_mem_singleton.mpr
      (total_getter hover hsees (only (ih₁ hsees.lt_size)) (only (ih₂ hm)).2)
  | setter hsees hn hopen hx hclose _ ih₁ ih₂ ih₃ =>
    have hm₂ := hopen.forward.2 (hn.forward.2 hsees.lt_size)
    have hm₄ := hclose.forward.2 (hx.forward.2 hm₂)
    exact List.forall_mem_singleton.mpr (total_setter hover hsees (only (ih₁ hsees.lt_size))
      (only (ih₂ hm₂)) (only (ih₃ hm₄)).2)
  | xml _ _ ih => exact List.forall_mem_singleton.mpr (total_xml (ih hp))
  | xmlText hsees _ ih =>
    exact List.forall_mem_cons.mpr ⟨.inl (.inl rfl), ih hsees.lt_size⟩
  | xmlLast => exact List.forall_mem_singleton.mpr (.inl (.inr rfl))
  | xmlEmbedded hopen hd hclose _ ih₁ ih₂ =>
    have hm := hclose.forward.2 (hd.forward.2 hopen.lt_size)
    exact List.forall_mem_cons.mpr ⟨.inr (only (ih₁ hopen.lt_size)), ih₂ hm⟩
  | invalid hsees _ ih => exact ih hsees.lt_size
  | new hsees _ ih =>
    exact List.forall_mem_singleton.mpr (total_new hover hsees (only (ih hsees.lt_size)))
  | newCall hsees hd _ _ ih₁ ih₂ =>
    obtain ⟨_, _, _, rfl, hcommas, hts⟩ := only (ih₂ (hd.forward.2 hsees.lt_size))
    exact List.forall_mem_singleton.mpr
      (total_new hover hsees (total_call hover (only (ih₁ hsees.lt_size)) hcommas hts))
  | access hd hsees htag hn ih₁ ih₂ =>
    have hmark := (hd.fits hover).between hsees (hn.fits hover) hover hp
    exact List.forall_mem_singleton.mpr
      (total_access hover htag hmark (only (ih₁ hp)) (only (ih₂ hsees.lt_size)))
  | index hd hsees _ _ ih₁ ih₂ =>
    exact List.forall_mem_singleton.mpr
      (total_index (only (ih₁ hp)) (only (ih₂ hsees.lt_size)))
  | call hd _ _ ih₁ ih₂ =>
    obtain ⟨_, _, _, rfl, hcommas, hts⟩ := only (ih₂ (hd.forward.2 hp))
    exact List.forall_mem_singleton.mpr (total_call hover (only (ih₁ hp)) hcommas hts)
  | trailed hd hsees htag _ ih =>
    exact List.forall_mem_singleton.mpr (total_trailing hover hsees htag
      ((hd.fits hover).start_le hp) ((hd.fits hover).after_le hover hp) (only (ih hp)))
  | leading hsees htag hd ih =>
    exact List.forall_mem_singleton.mpr (total_leading hover hsees htag
      ((hd.fits hover).start_gt hsees List.mem_cons_self) (only (ih hsees.lt_size)))
  | operate hd hsees hprecedence _ _ hu ih₁ ih₂ =>
    exact List.forall_mem_singleton.mpr
      (total_binary hover (isBinaryOperator_of_precedence hprecedence)
        ((hd.fits hover).between hsees (hu.fits hover) hover hp) (only (ih₁ hp))
        (only (ih₂ hsees.lt_size)))
  | assign hd hsees hoperator hu ih₁ ih₂ =>
    exact List.forall_mem_singleton.mpr
      (total_binary hover (isBinaryOperator_of_assignment hoperator)
        ((hd.fits hover).between hsees (hu.fits hover) hover hp) (only (ih₁ hp))
        (only (ih₂ hsees.lt_size)))
  | choose hd hsees hu hcolon _ ih₁ ih₂ ih₃ =>
    have hm := hcolon.forward.2 (hu.forward.2 hsees.lt_size)
    exact List.forall_mem_singleton.mpr
      (total_conditional hover ((hd.fits hover).between hsees (hu.fits hover) hover hp)
        (only (ih₁ hp)) (only (ih₂ hsees.lt_size)) (only (ih₃ hm)))
  | yield hsees hts _ ih =>
    exact List.forall_mem_singleton.mpr
      (total_yield hover hsees (optional_length hts) (ih hsees.lt_size))
  | commas hd hcomma hts ih₁ ih₂ =>
    have hcommas := Input.Fits.chain_cons hcomma ((hd.fits hover).after_le hover hp)
      (hts.fits hover) (hts.commas_between hover rfl hcomma.lt_size)
    exact List.forall_mem_singleton.mpr (total_comma hover hcommas
      (List.forall_mem_cons.mpr ⟨only (ih₁ hp), ih₂ hcomma.lt_size⟩))
  | nextStatement hd _ _ ih₁ ih₂ | nextClause hd _ ih₁ ih₂ | nextCatch hd _ ih₁ ih₂ =>
    exact List.forall_mem_cons.mpr ⟨only (ih₁ hp), ih₂ (hd.forward.2 hp)⟩
  | skipped _ _ hm _ _ ih | strayTokens _ hm _ ih => exact ih hm
  | block hopen _ _ ih =>
    exact List.forall_mem_singleton.mpr ⟨rfl, total_block (ih (hopen.forward.2 hp))⟩
  | named hsees hname _ ha _ ih₁ ih₂ =>
    obtain ⟨_, _, _, rfl, hcommas, hts⟩ := only (ih₁ hname.lt_size)
    have hbody := only (ih₂ (ha.forward.2 hname.lt_size))
    exact List.forall_mem_singleton.mpr (expressionTotal_of_rule _ (fun _ _ => rfl)
      (total_namedFunction hover hsees hcommas hts hbody.2))
  | unnamed hsees ha _ ih₁ ih₂ =>
    obtain ⟨_, _, _, rfl, hcommas, hts⟩ := only (ih₁ hsees.lt_size)
    have hbody := only (ih₂ (ha.forward.2 hsees.lt_size))
    exact List.forall_mem_singleton.mpr (expressionTotal_of_rule _ (fun _ _ => rfl)
      (total_unnamedFunction hover hsees hcommas hts hbody.2))
  | declaration hsees hts ih =>
    have hcommas := hts.commas_between hover rfl hsees.lt_size
    exact List.forall_mem_singleton.mpr (total_variables hover hsees hcommas (ih hsees.lt_size))
  | declared _ ih => exact List.forall_mem_singleton.mpr (total_declarator_name (only (ih hp)))
  | initialized _ hsees _ ih₁ ih₂ =>
    exact List.forall_mem_singleton.mpr
      (total_declarator (only (ih₁ hp)) (only (ih₂ hsees.lt_size)))
  | condition hopen _ _ ih => exact ih (hopen.forward.2 hp)
  | orElse hsees _ ih => exact ih hsees.lt_size
  | noClause => exact List.forall_mem_singleton.mpr total_noClause
  | clauseOf _ ih => exact List.forall_mem_singleton.mpr (total_clause (only (ih hp)))
  | steps ht hfirst hu hsecond _ ih₁ ih₂ ih₃ =>
    have hm₂ := hfirst.forward.2 (ht.forward.2 hp)
    have hm₄ := hsecond.forward.2 (hu.forward.2 hm₂)
    exact List.forall_mem_singleton.mpr
      ⟨_, _, _, _, _, rfl, only (ih₁ hp), only (ih₂ hm₂), only (ih₃ hm₄)⟩
  | iterate ht hsees hu ih₁ ih₂ =>
    have hin := (ht.fits hover).between hsees (hu.fits hover) hover hp
    exact List.forall_mem_singleton.mpr
      ⟨_, _, _, _, rfl, hin, only (ih₁ hp), only (ih₂ hsees.lt_size)⟩
  | caseClause hsees ht hcolon _ ih₁ ih₂ =>
    have hm := hcolon.forward.2 (ht.forward.2 hsees.lt_size)
    exact List.forall_mem_singleton.mpr
      (total_caseClause hover hsees (only (ih₁ hsees.lt_size)) (ih₂ hm))
  | defaultClause hsees hcolon _ ih =>
    exact List.forall_mem_singleton.mpr
      (total_defaultClause hover hsees (ih (hcolon.forward.2 hsees.lt_size)))
  | filter hsees _ ih =>
    exact List.forall_mem_singleton.mpr
      ⟨rfl, total_exceptionFilter hover hsees (only (ih hsees.lt_size))⟩
  | catchClause hsees hopen hx hfs hclose _ ih₁ ih₂ ih₃ =>
    have hm₁ := hopen.forward.2 hsees.lt_size
    have hm₂ := hx.forward.2 hm₁
    have hm₄ := hclose.forward.2 (hfs.forward.2 hm₂)
    exact List.forall_mem_singleton.mpr (.inl ⟨rfl, total_catchClause hover hsees (only (ih₁ hm₁))
      (optional_length hfs) (ih₂ hm₂) (only (ih₃ hm₄))⟩)
  | finalClause hsees _ ih =>
    exact List.forall_mem_singleton.mpr
      (.inr ⟨rfl, total_finallyClause hover hsees (only (ih hsees.lt_size)).2⟩)
  | blockStatement _ ih => exact List.forall_mem_singleton.mpr (total_blockStatement (only (ih hp)))
  | emptyStatement => exact List.forall_mem_singleton.mpr total_emptyStatement
  | functionStatement hd ih | variableStatement hd _ ih | nullStatement hd _ ih
  | expressionStatement _ hd _ _ ih =>
    exact List.forall_mem_singleton.mpr (statementTotal_of_expression
      (isStatementTag_of_isForeign (hd.isForeign_eq_false rfl _ List.mem_cons_self))
      (only (ih hp)))
  | constStatement hsees hts _ ih =>
    have hcommas := hts.commas_between hover rfl hsees.lt_size
    exact List.forall_mem_singleton.mpr
      (total_constStatement hover hsees hcommas (ih hsees.lt_size))
  | ifStatement hsees ht hu _ ih₁ ih₂ ih₃ =>
    have hm := ht.forward.2 hsees.lt_size
    exact List.forall_mem_singleton.mpr (total_ifStatement hover hsees (only (ih₁ hsees.lt_size))
      (only (ih₂ hm)) (ih₃ (hu.forward.2 hm)))
  | doStatement hsees ht hwhile _ _ ih₁ ih₂ =>
    have hm := hwhile.forward.2 (ht.forward.2 hsees.lt_size)
    exact List.forall_mem_singleton.mpr
      (total_doStatement hover hsees (only (ih₁ hsees.lt_size)) (only (ih₂ hm)))
  | whileStatement hsees ht _ ih₁ ih₂ =>
    exact List.forall_mem_singleton.mpr (total_whileStatement hover hsees
      (only (ih₁ hsees.lt_size)) (only (ih₂ (ht.forward.2 hsees.lt_size))))
  | withStatement hsees ht _ ih₁ ih₂ =>
    exact List.forall_mem_singleton.mpr (total_withStatement hover hsees
      (only (ih₁ hsees.lt_size)) (only (ih₂ (ht.forward.2 hsees.lt_size))))
  | @forStatement _ each _ _ iterates _ _ _ _ _ _ _ _ hsees heach hopen hhead hclose _ ih₁ ih₂ =>
    have hm₁ := hopen.forward.2 (by cases each <;> grind)
    have hhead' := only (ih₁ hm₁)
    have hbody := only (ih₂ (hclose.forward.2 (hhead.forward.2 hm₁)))
    refine List.forall_mem_singleton.mpr ?_
    cases iterates with
    | false =>
      rw [Bool.and_false]
      exact total_forSteps hover hsees hhead' hbody
    | true => exact total_forIn hover (by cases each <;> simp) hsees hhead' hbody
  | jumpStatement hsees hk =>
    exact List.forall_mem_singleton.mpr (total_jumpStatement hover hsees hk)
  | returnStatement hsees _ _ _ ih =>
    exact List.forall_mem_singleton.mpr (total_returnStatement hover hsees (ih hsees.lt_size))
  | throwStatement hsees _ _ ih =>
    exact List.forall_mem_singleton.mpr
      (total_throwStatement hover hsees (only (ih hsees.lt_size)))
  | switchStatement hsees ht hopen _ _ ih₁ ih₂ =>
    have hm := hopen.forward.2 (ht.forward.2 hsees.lt_size)
    exact List.forall_mem_singleton.mpr
      (total_switchStatement hover hsees (only (ih₁ hsees.lt_size)) (ih₂ hm))
  | tryStatement hsees ht hts _ ih₁ ih₂ ih₃ =>
    have hm₁ := ht.forward.2 hsees.lt_size
    refine List.forall_mem_singleton.mpr
      (total_tryStatement hover hsees (only (ih₁ hsees.lt_size)).2 ?_)
    exact List.forall_mem_append.mpr ⟨ih₂ hm₁, ih₃ (hts.forward.2 hm₁)⟩
  | namespaceStatement hsees hxml hns hes ht _ _ _ ih =>
    have hm := hes.forward.2 (hns.forward.2 hxml.lt_size)
    exact List.forall_mem_singleton.mpr (total_namespaceStatement hover hsees hxml
      (required_cases hns) (required_cases hes) (only (ih hm)))
  | labelledStatement _ _ hcolon _ ih =>
    exact List.forall_mem_singleton.mpr (total_labelledStatement (only (ih hcolon.lt_size)))

/-- The statements of a script that the grammar has read are all lowered. -/
theorem Derives.total_statements (hover : input.Over tokens)
    (h : Derives input .statements 0 q e ts) (root : Concrete) (hroot : root.children = ts) :
    Total limit (2 * root.height) (Lowering.statements (.ofTokens tokens) limit root) := by
  subst hroot
  refine total_mapM fun t ht => ?_
  have hheight := Concrete.height_lt_of_mem_children ht
  exact h.lowers hover (Nat.zero_le _) t ht _ .root _ (by omega)
    (by simp only [Ancestry.root]; omega)

/-- Whatever tokens the grammar reads as a script, with or without reports, the tree it builds is
lowered to a script. Only the limit on depth may prevent that, and only if it is less than twice the
height of the tree. -/
theorem ofConcrete_program_total (tokens : Array Token) (lines : LineMap) (limit : Nat)
    (tree : Concrete) (c : Cursor)
    (h : Cursor.initial.program (.ofTokens tokens lines limit) = (.ok tree, c)) (maxDepth : Nat) :
    (∃ script, Script.ofConcrete tokens maxDepth (some tree) = .ok script) ∨
      Script.ofConcrete tokens maxDepth (some tree) = .error (.tooDeep maxDepth) ∧
        maxDepth < 2 * tree.height := by
  obtain ⟨ts, htree, hts⟩ := program_derives h
  have hkind : tree.kind = .script := by rw [htree]; rfl
  have htotal : Total maxDepth (2 * tree.height)
      (Script.ofConcrete tokens maxDepth (some tree)) := by
    unfold Script.ofConcrete
    simp only [hkind, if_true]
    refine Total.bind ?_ fun _ => total_ok _
    exact hts.total_statements (Input.ofTokens_over ..) tree (by rw [htree]; rfl)
  generalize Script.ofConcrete tokens maxDepth (some tree) = result at htotal
  cases result with
  | ok script => exact .inl ⟨script, rfl⟩
  | error error => exact .inr ⟨congrArg _ htotal.1, htotal.2⟩

/-- Also a parenthesis with nothing after it gives a script. -/
theorem ofConcrete_openParen_total :
    let tokens : Array Token := #[⟨.openParen, "(", 1, 0, 0, false, false⟩]
    ∃ tree c, Cursor.initial.program (.ofTokens tokens (.ofText "(") 9) = (.ok tree, c) ∧
      ((∃ script, Script.ofConcrete tokens 512 (some tree) = .ok script) ∨
        Script.ofConcrete tokens 512 (some tree) = .error (.tooDeep 512) ∧
          512 < 2 * tree.height) := by
  intro tokens
  have hread : ∃ tree c,
      Cursor.initial.program (.ofTokens tokens (.ofText "(") 9) = (.ok tree, c) := ⟨_, _, rfl⟩
  obtain ⟨tree, c, h⟩ := hread
  exact ⟨tree, c, h, ofConcrete_program_total _ _ _ _ _ h 512⟩

end ScriptTree
