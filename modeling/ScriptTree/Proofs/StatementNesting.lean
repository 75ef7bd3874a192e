import ScriptTree.Proofs.ExpressionNesting

/-!
Where the nodes of statements stand. A statement lies in the tokens of its tree, except that an
expression statement goes on to the semicolon after its expression.
-/
namespace ScriptTree
open Lowered

/-- The semicolon that ends an expression statement. -/
theorem Lowering.terminator?_spec {input : Input} {tokens : Array Token}
    (hover : input.Over tokens) {start bound pos : Nat}
    (h : terminator? (.ofTokens tokens) start bound = some pos) :
    ∃ j, input.Sees j .semicolon ∧ start ≤ input.indexAt j ∧ input.indexAt j < bound ∧
      pos = input.startAt tokens j := by
  unfold terminator? at h
  split at h
  · cases h
  · rename_i hbound
    obtain ⟨i, hi, h⟩ := Option.bind_eq_some_iff.mp h
    obtain ⟨x, hx, h⟩ := Option.bind_eq_some_iff.mp h
    obtain ⟨hle, hlt, _⟩ := TokenTable.search?_spec hi
    split at h
    · rename_i hkind
      cases h
      obtain ⟨j, rfl, hsees⟩ := rank_of_kind hover rfl hx hkind
      exact ⟨j, hsees, hle, by omega, rfl⟩
    · cases h

section
variable {input : Input} {tokens : Array Token} {b : Builder} {t u : Concrete} {a : Ancestry}
  (cuts : input.Cuts tokens) (ht : input.Snug t) (hb : b.Nests input tokens)
include cuts ht hb

/-- An expression statement goes on to its semicolon, which stands before the bound. -/
theorem lies_expressionStatement {r : Stretch} {bound : Nat} (hr : input.TakesIn r t.stretch)
    (hbound : bound ≤ r.stop) : Gives (LiesIn input tokens r)
    (Lowering.expressionStatement (.ofTokens tokens) b t a bound) := by
  unfold Lowering.expressionStatement
  refine (hb.expression t _ ht).bind fun inside hinside => ?_
  generalize hsemicolon : (if t.isEmpty = true then none
    else Lowering.terminator? (.ofTokens tokens) t.after bound) = semicolon
  cases semicolon with
  | none =>
    exact gives_ok ((hinside.mono hr).around cuts rfl (Node.quotes_of_marked rfl marked_nil) rfl)
  | some pos =>
    split at hsemicolon
    · cases hsemicolon
    · obtain ⟨s, hle, hrange, htakes⟩ := hinside.seat
      obtain ⟨j, hsees, hafter, hlt, rfl⟩ := Lowering.terminator?_spec cuts.toOver hsemicolon
      have hj : s.stop ≤ input.indexAt j :=
        (htakes j hsees.lt_size).2.resolve_left (Nat.not_lt_of_le hafter)
      have hend : input.startAt tokens j + 1 =
          TokenTable.offset (.ofTokens tokens) (input.indexAt j + 1) := by
        rw [← cuts.stopAt_succ_semicolon hsees, Input.stopAt, Input.afterAt_succ hsees.lt_size]
      have hsemicolon := stands_of_sees cuts hsees rfl
      refine gives_ok (liesIn_seat cuts (s := ⟨s.start, input.indexAt j + 1⟩)
        (by dsimp only; omega) ?_ ?_ (Node.quotes_of_marked rfl hsemicolon.only)
        (List.forall_mem_singleton.mpr ?_))
      · change Range.between inside.range.start (input.startAt tokens j + 1) = _
        rw [hrange, hend]
        exact Stretch.between_offset tokens (by omega)
      · intro i hi
        have := (hr.trans htakes i hi).1
        dsimp only
        omega
      · refine ⟨⟨s, hle, hrange, .of_le (Nat.le_refl _) ?_⟩, hinside.keeps⟩
        dsimp only
        omega

theorem lies_constStatement (hkind : t.kind = .constKeyword) :
    Gives (LiesIn input tokens t.stretch) (Lowering.constStatement (.ofTokens tokens) b t a) := by
  unfold Lowering.constStatement
  refine (gives_keyword cuts (ht.start_lt hkind rfl) rfl).bind fun word hword => ?_
  refine (gives_mapM fun u hu => (lies_declarator cuts (ht.inside hu) hb).inside ht hu).bind
    fun declarations hdeclarations => ?_
  refine (gives_commas cuts t.children).bind fun commas hcommas => gives_ok ?_
  exact ht.liesIn cuts rfl rfl (hcommas.append (marked_semicolon? cuts))
    (List.forall_mem_cons.mpr ⟨hword, hdeclarations⟩)

theorem lies_ifStatement (hkind : t.kind = .ifKeyword) :
    Gives (LiesIn input tokens t.stretch) (Lowering.ifStatement (.ofTokens tokens) b t a) := by
  unfold Lowering.ifStatement
  refine (gives_keyword cuts (ht.start_lt hkind rfl) rfl).bind fun word hword => ?_
  refine gives_child.bind fun conditionTree hconditionTree => ?_
  refine gives_child.bind fun thenTree hthenTree => ?_
  refine (hb.part ht hconditionTree).bind fun condition hcondition => ?_
  refine (hb.body ht hthenTree).bind fun thenStatement hthenStatement => ?_
  have helseTree : ∀ u ∈ t.child? 2, u ∈ t.children := fun u hu => List.mem_of_getElem? hu
  refine (gives_option_mapM fun u hu => hb.body ht (helseTree u hu)).bind
    fun elseStatement helseStatement => gives_ok ?_
  have helseKeyword : ∀ word, ((t.child? 2).bind fun e =>
      Lowering.keyword? (.ofTokens tokens) .elseKeyword thenTree.after e.start) = some word →
      LiesIn input tokens t.stretch (.keyword word) := by
    intro word h
    obtain ⟨e, he, hfound⟩ := Option.bind_eq_some_iff.mp h
    exact ht.liesIn_keyword? cuts hthenTree (helseTree e he) rfl hfound
  refine ht.liesIn cuts rfl rfl ((marked_position? cuts rfl).append (marked_position? cuts rfl)) ?_
  generalize ((t.child? 2).bind fun e => Lowering.keyword? (.ofTokens tokens) .elseKeyword
    thenTree.after e.start) = elseKeyword at helseKeyword ⊢
  simpa [Node.children, or_imp, forall_and] using
    ⟨hword, hcondition, hthenStatement, helseKeyword, helseStatement⟩

theorem lies_whileStatement (hkind : t.kind = .whileKeyword) :
    Gives (LiesIn input tokens t.stretch) (Lowering.whileStatement (.ofTokens tokens) b t a) := by
  unfold Lowering.whileStatement
  refine (gives_keyword cuts (ht.start_lt hkind rfl) rfl).bind fun word hword => ?_
  refine gives_child.bind fun conditionTree hconditionTree => ?_
  refine gives_child.bind fun bodyTree hbodyTree => ?_
  refine (hb.part ht hconditionTree).bind fun condition hcondition => ?_
  refine (hb.body ht hbodyTree).bind fun body hbody => gives_ok ?_
  exact ht.liesIn cuts rfl rfl ((marked_position? cuts rfl).append (marked_position? cuts rfl))
    (by simp [Node.children, hword, hcondition, hbody])

theorem lies_doWhileStatement (hkind : t.kind = .doKeyword) :
    Gives (LiesIn input tokens t.stretch)
      (Lowering.doWhileStatement (.ofTokens tokens) b t a) := by
  unfold Lowering.doWhileStatement
  refine (gives_keyword cuts (ht.start_lt hkind rfl) rfl).bind fun word hword => ?_
  refine gives_child.bind fun bodyTree hbodyTree => ?_
  refine gives_child.bind fun conditionTree hconditionTree => ?_
  refine (hb.body ht hbodyTree).bind fun body hbody => ?_
  refine (hb.part ht hconditionTree).bind fun condition hcondition => gives_ok ?_
  have hwhile : ∀ word ∈ (Lowering.index? (.ofTokens tokens) .whileKeyword bodyTree.after
      conditionTree.start).bind (Lowering.keywordAt? (.ofTokens tokens)),
      LiesIn input tokens t.stretch (.keyword word) :=
    fun _ h => ht.liesIn_keyword? cuts hbodyTree hconditionTree rfl h
  refine ht.liesIn cuts rfl rfl (((marked_position? cuts rfl).append
    (marked_position? cuts rfl)).append (marked_position? cuts rfl)) ?_
  generalize (Lowering.index? (.ofTokens tokens) .whileKeyword bodyTree.after
    conditionTree.start).bind (Lowering.keywordAt? (.ofTokens tokens)) = whileKeyword at hwhile ⊢
  simpa [Node.children, or_imp, forall_and] using ⟨hword, hbody, hwhile, hcondition⟩

theorem lies_forStatement {head bodyTree : Concrete} (hlt : t.start < t.after)
    (hhead : head ∈ t.children) (hbodyTree : bodyTree ∈ t.children) :
    Gives (LiesIn input tokens t.stretch)
      (Lowering.forStatement (.ofTokens tokens) b t head bodyTree a) := by
  unfold Lowering.forStatement
  refine (gives_keyword cuts hlt rfl).bind fun word hword => ?_
  refine gives_child.bind fun initialTree hinitialTree => ?_
  refine gives_child.bind fun conditionTree hconditionTree => ?_
  refine gives_child.bind fun stepTree hstepTree => ?_
  refine (hb.part_of_part ht hhead hinitialTree).bind fun initial hinitial => ?_
  refine (hb.part_of_part ht hhead hconditionTree).bind fun condition hcondition => ?_
  refine (hb.part_of_part ht hhead hstepTree).bind fun step hstep => ?_
  refine (hb.body ht hbodyTree).bind fun body hbody => gives_ok ?_
  refine ht.liesIn cuts rfl rfl ?_
    (by simp [Node.children, hword, hinitial, hcondition, hstep, hbody])
  exact (((marked_position? cuts rfl).append (marked_position? cuts rfl)).append
    (marked_position? cuts rfl)).append (marked_position? cuts rfl)

theorem lies_forInStatement {head bodyTree : Concrete} (hlt : t.start < t.after)
    (hhead : head ∈ t.children) (hbodyTree : bodyTree ∈ t.children) :
    Gives (LiesIn input tokens t.stretch)
      (Lowering.forInStatement (.ofTokens tokens) b t head bodyTree a) := by
  unfold Lowering.forInStatement
  refine (gives_keyword cuts hlt rfl).bind fun word hword => ?_
  refine gives_child.bind fun itemTree hitemTree => ?_
  refine gives_child.bind fun iteratorTree hiteratorTree => ?_
  have heach : ∀ word ∈ if (t.kind == .forEach) = true then
      Lowering.keyword? (.ofTokens tokens) .eachKeyword (t.start + 1) head.start else none,
      LiesIn input tokens t.stretch (.keyword word) := by
    intro word h
    split at h
    · refine liesIn_keyword? cuts rfl h (fun j _ hj => Nat.le_of_succ_le hj) ?_
      exact (ht.inside hhead).lt_stop_of_start (ht.takesIn hhead)
    · cases h
  dsimp only
  generalize (if (t.kind == .forEach) = true then Lowering.keyword? (.ofTokens tokens)
    .eachKeyword (t.start + 1) head.start else none) = eachKeyword at heach ⊢
  split
  · rename_i inKeyword hin
    have hin := ((ht.inside hhead).liesIn_keyword? cuts hitemTree hiteratorTree rfl hin).mono
      (ht.takesIn hhead)
    refine Gives.next rfl ((hb.part_of_part ht hhead hitemTree).bind fun item hitem => ?_)
    refine (hb.part_of_part ht hhead hiteratorTree).bind fun iterator hiterator => ?_
    refine (hb.body ht hbodyTree).bind fun body hbody => gives_ok (ht.liesIn cuts rfl rfl
      ((marked_position? cuts rfl).append (marked_position? cuts rfl)) ?_)
    simpa [Node.children, or_imp, forall_and] using
      ⟨hword, heach, hitem, hin, hiterator, hbody⟩
  · exact gives_error

theorem lies_forLoop (hlt : t.start < t.after) :
    Gives (LiesIn input tokens t.stretch) (Lowering.forLoop (.ofTokens tokens) b t a) := by
  unfold Lowering.forLoop
  refine gives_child.bind fun head hhead => gives_child.bind fun body hbody => ?_
  split
  · exact lies_forStatement cuts ht hb hlt hhead hbody
  · exact lies_forInStatement cuts ht hb hlt hhead hbody
  · exact gives_error

theorem lies_caseClause (hkind : t.kind = .caseKeyword) :
    Gives (LiesIn input tokens t.stretch) (Lowering.caseClause (.ofTokens tokens) b t a) := by
  unfold Lowering.caseClause
  refine (gives_keyword cuts (ht.start_lt hkind rfl) rfl).bind fun word hword => ?_
  refine gives_child.bind fun conditionTree hconditionTree => ?_
  refine (hb.part ht hconditionTree).bind fun condition hcondition => ?_
  refine (gives_mapM fun u hu => hb.body ht (List.mem_of_mem_drop hu)).bind
    fun statements hstatements => gives_ok ?_
  exact ht.liesIn cuts rfl rfl (marked_position? cuts rfl)
    (List.forall_mem_cons.mpr ⟨hword, List.forall_mem_cons.mpr ⟨hcondition, hstatements⟩⟩)

theorem lies_defaultClause (hkind : t.kind = .defaultKeyword) :
    Gives (LiesIn input tokens t.stretch) (Lowering.defaultClause (.ofTokens tokens) b t a) := by
  unfold Lowering.defaultClause
  refine (gives_keyword cuts (ht.start_lt hkind rfl) rfl).bind fun word hword => ?_
  refine (gives_mapM fun u hu => hb.body ht hu).bind fun statements hstatements => gives_ok ?_
  exact ht.liesIn cuts rfl rfl (marked_position? cuts rfl)
    (List.forall_mem_cons.mpr ⟨hword, hstatements⟩)

theorem lies_switchClause :
    Gives (LiesIn input tokens t.stretch) (Lowering.switchClause (.ofTokens tokens) b t a) := by
  unfold Lowering.switchClause
  split
  · exact lies_caseClause cuts ht hb (by assumption)
  · exact lies_defaultClause cuts ht hb (by assumption)
  · exact gives_error

theorem lies_switchStatement (hkind : t.kind = .switchKeyword) :
    Gives (LiesIn input tokens t.stretch) (Lowering.switchStatement (.ofTokens tokens) b t a) := by
  unfold Lowering.switchStatement
  refine (gives_keyword cuts (ht.start_lt hkind rfl) rfl).bind fun word hword => ?_
  refine gives_child.bind fun conditionTree hconditionTree => ?_
  have hclauseTrees : ∀ u ∈ Lowering.sorted (t.children.drop 1), u ∈ t.children :=
    fun u hu => List.mem_of_mem_drop (List.mem_mergeSort.mp hu)
  refine (gives_mapM fun u hu => (lies_switchClause cuts (ht.inside (hclauseTrees u hu)) hb).inside
    ht (hclauseTrees u hu)).bind fun clauses hclauses => ?_
  refine (hb.part ht hconditionTree).bind fun condition hcondition => gives_ok ?_
  refine ht.liesIn cuts rfl rfl ?_
    (List.forall_mem_cons.mpr ⟨hword, List.forall_mem_cons.mpr ⟨hcondition, hclauses⟩⟩)
  exact (((marked_position? cuts rfl).append (marked_position? cuts rfl)).append
    (marked_position? cuts rfl)).append (marked_position? cuts rfl)

theorem lies_exceptionFilter (hkind : t.kind = .ifKeyword) :
    Gives (LiesIn input tokens t.stretch) (Lowering.exceptionFilter (.ofTokens tokens) b t a) := by
  unfold Lowering.exceptionFilter
  refine (gives_keyword cuts (ht.start_lt hkind rfl) rfl).bind fun word hword => ?_
  refine gives_child.bind fun conditionTree hconditionTree => ?_
  refine (hb.part ht hconditionTree).bind fun condition hcondition => gives_ok ?_
  exact ht.liesIn cuts rfl rfl marked_nil (by simp [Node.children, hword, hcondition])

omit ht hb cuts in
theorem mem_of_firstAndLast? {ts : List Concrete} {first last : Concrete}
    (h : Lowering.firstAndLast? ts = some (first, last)) : first ∈ ts ∧ last ∈ ts := by
  unfold Lowering.firstAndLast? at h
  split at h
  · rename_i second rest
    cases h
    refine ⟨List.mem_cons_self, List.mem_cons_of_mem _ ?_⟩
    cases hlast : rest.getLast? with
    | none => exact List.mem_cons_self
    | some u => exact List.mem_cons_of_mem _ (List.mem_of_getLast? hlast)
  · cases h

theorem lies_catchClause (hkind : t.kind = .catchKeyword) :
    Gives (LiesIn input tokens t.stretch) (Lowering.catchClause (.ofTokens tokens) b t a) := by
  unfold Lowering.catchClause
  refine (gives_keyword cuts (ht.start_lt hkind rfl) rfl).bind fun word hword => ?_
  have hfilterTree : ∀ u ∈ (t.child? 1).filter (·.kind == .ifKeyword),
      u ∈ t.children ∧ u.kind = .ifKeyword := by
    intro u hu
    obtain ⟨hu, hif⟩ := Option.filter_eq_some_iff.mp hu
    exact ⟨List.mem_of_getElem? hu, beq_iff_eq.mp hif⟩
  dsimp only
  split
  · rename_i trees htrees
    obtain ⟨hexceptionTree, hbodyTree⟩ := mem_of_firstAndLast? htrees
    refine Gives.next rfl ?_
    refine (gives_option_mapM fun u hu => (lies_exceptionFilter cuts
      (ht.inside (hfilterTree u hu).1) hb (hfilterTree u hu).2).inside ht (hfilterTree u hu).1).bind
        fun filter hfilter => ?_
    refine (lies_identifier_of_mem cuts ht hexceptionTree).bind fun exception hexception => ?_
    refine (lies_block_of_mem cuts ht hb hbodyTree).bind
      fun body hbody => gives_ok (ht.liesIn cuts rfl rfl
        ((marked_position? cuts rfl).append (marked_position? cuts rfl)) ?_)
    simpa [Node.children, or_imp, forall_and] using ⟨hword, hexception, hfilter, hbody⟩
  · exact gives_error

theorem lies_finallyClause (hkind : t.kind = .finallyKeyword) :
    Gives (LiesIn input tokens t.stretch) (Lowering.finallyClause (.ofTokens tokens) b t a) := by
  unfold Lowering.finallyClause
  refine (gives_keyword cuts (ht.start_lt hkind rfl) rfl).bind fun word hword => ?_
  refine gives_child.bind fun bodyTree hbodyTree => ?_
  refine (lies_block_of_mem cuts ht hb hbodyTree).bind fun body hbody => gives_ok ?_
  exact ht.liesIn cuts rfl rfl marked_nil (by simp [Node.children, hword, hbody])

omit cuts ht hb in
theorem forall_mem_or_some {α : Type} {P : α → Prop} {later : Option α} {x : α}
    (hlater : ∀ y ∈ later, P y) (hx : P x) : ∀ y ∈ later.or (some x), P y := by
  cases later with
  | none => simpa using hx
  | some y => simpa using hlater

theorem lies_tryClauses {ts : List Concrete} (hts : ∀ u ∈ ts, u ∈ t.children) :
    Gives (fun clauses => (∀ n ∈ clauses.1, LiesIn input tokens t.stretch n) ∧
      ∀ n ∈ clauses.2, LiesIn input tokens t.stretch n)
      (Lowering.tryClauses (.ofTokens tokens) b a ts) := by
  induction ts with
  | nil => exact gives_ok ⟨nofun, nofun⟩
  | cons u us ih =>
    have hu := hts u List.mem_cons_self
    have ih := ih fun v hv => hts v (List.mem_cons_of_mem u hv)
    unfold Lowering.tryClauses
    split
    · refine ((lies_catchClause cuts (ht.inside hu) hb (by assumption)).inside ht hu).bind
        fun clause hclause => ih.bind fun clauses hclauses => gives_ok ?_
      exact ⟨List.forall_mem_cons.mpr ⟨hclause, hclauses.1⟩, hclauses.2⟩
    · refine ((lies_finallyClause cuts (ht.inside hu) hb (by assumption)).inside ht hu).bind
        fun clause hclause => ih.bind fun clauses hclauses => gives_ok ⟨hclauses.1, ?_⟩
      exact forall_mem_or_some hclauses.2 hclause
    · exact gives_error

theorem lies_tryStatement (hkind : t.kind = .tryKeyword) :
    Gives (LiesIn input tokens t.stretch) (Lowering.tryStatement (.ofTokens tokens) b t a) := by
  unfold Lowering.tryStatement
  refine (gives_keyword cuts (ht.start_lt hkind rfl) rfl).bind fun word hword => ?_
  refine gives_child.bind fun bodyTree hbodyTree => ?_
  refine (lies_block_of_mem cuts ht hb hbodyTree).bind fun body hbody => ?_
  refine (lies_tryClauses cuts ht hb fun u hu => List.mem_of_mem_drop hu).bind
    fun clauses hclauses => gives_ok (ht.liesIn cuts rfl rfl marked_nil ?_)
  simpa [Node.children, or_imp, forall_and] using ⟨hword, hbody, hclauses⟩

theorem lies_throwStatement (hkind : t.kind = .throwKeyword) :
    Gives (LiesIn input tokens t.stretch) (Lowering.throwStatement (.ofTokens tokens) b t a) := by
  unfold Lowering.throwStatement
  refine gives_child.bind fun exceptionTree hexceptionTree => ?_
  refine (gives_keyword cuts (ht.start_lt hkind rfl) rfl).bind fun word hword => ?_
  refine (hb.part ht hexceptionTree).bind fun exception hexception => gives_ok ?_
  exact ht.liesIn cuts rfl rfl (marked_semicolon? cuts)
    (by simp [Node.children, hword, hexception])

theorem lies_returnStatement (hkind : t.kind = .returnKeyword) :
    Gives (LiesIn input tokens t.stretch) (Lowering.returnStatement (.ofTokens tokens) b t a) := by
  unfold Lowering.returnStatement
  refine (gives_option_mapM fun u hu => hb.part ht (List.mem_of_getElem? hu)).bind
    fun value hvalue => ?_
  refine (gives_keyword cuts (ht.start_lt hkind rfl) rfl).bind fun word hword => gives_ok ?_
  exact ht.liesIn cuts rfl rfl (marked_semicolon? cuts)
    (by simpa [Node.children] using ⟨hword, hvalue⟩)

omit hb in
theorem lies_label (hu : u ∈ t.children) : LiesIn input tokens t.stretch
    (.label (Lowering.label (.ofTokens tokens) u)) :=
  ((ht.inside hu).liesIn_leaf cuts rfl rfl rfl rfl).mono (ht.takesIn hu)

omit hb in
theorem lies_jumpStatement {k : Kind} (hkind : t.kind = k) (hfirst : k.beginsWithWord = true)
    (hk : k.keywordText?.isSome = true) :
    Gives (LiesIn input tokens t.stretch) (Lowering.jumpStatement (.ofTokens tokens) t) := by
  unfold Lowering.jumpStatement
  refine (gives_keyword cuts (ht.start_lt hkind hfirst) (hkind ▸ hk)).bind
    fun word hword => gives_ok (ht.liesIn cuts rfl rfl (marked_semicolon? cuts) ?_)
  have htarget : ∀ u ∈ t.child? 0, LiesIn input tokens t.stretch
      (.label (Lowering.label (.ofTokens tokens) u)) :=
    fun u hu => lies_label cuts ht (List.mem_of_getElem? hu)
  simpa [Node.children] using ⟨hword, htarget⟩

theorem lies_labelledStatement : Gives (LiesIn input tokens t.stretch)
    (Lowering.labelledStatement (.ofTokens tokens) b t a) := by
  unfold Lowering.labelledStatement
  refine gives_child.bind fun labelTree hlabelTree => ?_
  refine gives_child.bind fun statementTree hstatementTree => ?_
  refine (hb.body ht hstatementTree).bind fun statement hstatement => gives_ok ?_
  exact ht.liesIn cuts rfl rfl (marked_position? cuts rfl)
    (by simp [Node.children, lies_label cuts ht hlabelTree, hstatement])

theorem lies_withStatement (hkind : t.kind = .withKeyword) :
    Gives (LiesIn input tokens t.stretch) (Lowering.withStatement (.ofTokens tokens) b t a) := by
  unfold Lowering.withStatement
  refine gives_child.bind fun objectTree hobjectTree => ?_
  refine gives_child.bind fun statementTree hstatementTree => ?_
  refine (gives_keyword cuts (ht.start_lt hkind rfl) rfl).bind fun word hword => ?_
  refine (hb.part ht hobjectTree).bind fun object hobject => ?_
  refine (hb.body ht hstatementTree).bind fun statement hstatement => gives_ok ?_
  exact ht.liesIn cuts rfl rfl ((marked_position? cuts rfl).append (marked_position? cuts rfl))
    (by simp [Node.children, hword, hobject, hstatement])

omit cuts ht hb in
/-- A leaf with a text has a token. -/
theorem Input.Snug.start_lt_of_text (hu : input.Snug u) (htext : u.text ≠ none) :
    u.start < u.after := by
  obtain ⟨p, k, tag, _, _, rfl⟩ := hu.holds.text.resolve_left htext
  exact input.start_lt_after_leafAt p tag

omit ht hb in
theorem stands_leaf {k : Kind} (hu : input.Snug u) (htext : u.text ≠ none) (hkind : u.kind = k)
    (hk : k.text?.isSome = true) :
    (Mark.mk k (TokenTable.offset (.ofTokens tokens) u.start)).Stands tokens := by
  obtain ⟨p, k', tag, hsees, rfl | rfl, rfl⟩ := hu.holds.text.resolve_left htext
  · obtain rfl : tag = k := hkind
    exact stands_of_sees cuts hsees hk
  · obtain rfl : Kind.identifier = k := hkind
    cases hk

omit hb in
theorem lies_namespaceParts {ts : List Concrete}
    (hts : ∀ u ∈ ts, u ∈ t.children ∧ u.text ≠ none) :
    Gives (fun parts => (∀ word ∈ parts.1, LiesIn input tokens t.stretch (.keyword word)) ∧
        ∀ pos ∈ parts.2, (Mark.mk .equals pos).Stands tokens)
      (Lowering.namespaceParts (.ofTokens tokens) ts) := by
  induction ts with
  | nil => exact gives_ok ⟨nofun, nofun⟩
  | cons u us ih =>
    obtain ⟨hu, htext⟩ := hts u List.mem_cons_self
    have hsnug := ht.inside hu
    have ih := ih fun v hv => hts v (List.mem_cons_of_mem u hv)
    unfold Lowering.namespaceParts
    split
    · refine (gives_keyword cuts (hsnug.start_lt_of_text htext) rfl).bind fun word hword =>
        ih.bind fun parts hparts => gives_ok ⟨?_, hparts.2⟩
      exact forall_mem_or_some hparts.1 (hword.mono (ht.takesIn hu))
    · rename_i hkind
      refine ih.bind fun parts hparts => gives_ok ⟨hparts.1, ?_⟩
      exact forall_mem_or_some hparts.2 (stands_leaf cuts hsnug htext hkind rfl)
    · exact gives_error

theorem lies_defaultXmlNamespace (hkind : t.kind = .defaultXmlNamespace) :
    Gives (LiesIn input tokens t.stretch)
      (Lowering.defaultXmlNamespace (.ofTokens tokens) b t a) := by
  unfold Lowering.defaultXmlNamespace
  have hwords := ht.holds.words.namespaceWords hkind
  split
  · rename_i defaultTree xmlTree next rest hchildren
    have hin {u : Concrete} (hu : u ∈ t.children.dropLast) : u ∈ t.children :=
      List.dropLast_subset _ hu
    have hdrop : t.children.dropLast =
        defaultTree :: xmlTree :: (next :: rest).dropLast := by
      rw [hchildren]
      rfl
    have hgives {k : Kind} {u : Concrete} (hu : u ∈ t.children.dropLast)
        (hk : k.keywordText?.isSome = true) : Gives
        (fun word => LiesIn input tokens t.stretch (.keyword word))
        (Lowering.keyword (.ofTokens tokens) k u.start) :=
      (gives_keyword cuts ((ht.inside (hin hu)).start_lt_of_text (hwords u hu)) hk).mono
        fun _ hw => hw.mono (ht.takesIn (hin hu))
    have hvalueTree : rest.getLast?.getD next ∈ t.children := by
      rw [hchildren]
      cases hlast : rest.getLast? with
      | none => simp
      | some u => simp [List.mem_of_getLast? hlast]
    refine (lies_namespaceParts cuts ht fun u hu => ?_).bind fun parts hparts => ?_
    · have hu : u ∈ t.children.dropLast := by simp [hdrop, hu]
      exact ⟨hin hu, hwords u hu⟩
    refine (hgives (by simp [hdrop]) rfl).bind fun word hword => ?_
    refine (hgives (by simp [hdrop]) rfl).bind fun xmlKeyword hxmlKeyword => ?_
    refine (hb.part ht hvalueTree).bind fun value hvalue => gives_ok (ht.liesIn cuts rfl rfl
      ((marked_of? hparts.2).append (marked_semicolon? cuts)) ?_)
    simpa [Node.children, or_imp, forall_and] using ⟨hword, hxmlKeyword, hparts.1, hvalue⟩
  · exact gives_error

theorem lies_statement {limit bound : Nat} {r : Stretch} (hr : input.TakesIn r t.stretch)
    (hbound : bound ≤ r.stop) : Gives (LiesIn input tokens r)
    (Lowering.statement (.ofTokens tokens) limit b t a bound) := by
  have hwhole {x : Lowered Node} (h : Gives (LiesIn input tokens t.stretch) x) :
      Gives (LiesIn input tokens r) x :=
    h.mono fun _ hn => hn.mono hr
  unfold Lowering.statement
  refine Gives.then ?_
  split
  · exact hwhole (lies_block cuts ht hb)
  · exact hwhole (gives_ok (ht.liesIn cuts rfl rfl marked_nil nofun))
  · exact hwhole (lies_constStatement cuts ht hb (by assumption))
  · exact hwhole (lies_ifStatement cuts ht hb (by assumption))
  · exact hwhole (lies_whileStatement cuts ht hb (by assumption))
  · exact hwhole (lies_doWhileStatement cuts ht hb (by assumption))
  · exact hwhole (lies_forLoop cuts ht hb (ht.start_lt (by assumption) rfl))
  · exact hwhole (lies_forLoop cuts ht hb (ht.start_lt (by assumption) rfl))
  · exact hwhole (lies_switchStatement cuts ht hb (by assumption))
  · exact hwhole (lies_tryStatement cuts ht hb (by assumption))
  · exact hwhole (lies_throwStatement cuts ht hb (by assumption))
  · exact hwhole (lies_returnStatement cuts ht hb (by assumption))
  · exact hwhole (lies_jumpStatement cuts ht (by assumption) rfl rfl)
  · exact hwhole (lies_jumpStatement cuts ht (by assumption) rfl rfl)
  · exact hwhole (lies_labelledStatement cuts ht hb)
  · exact hwhole (lies_withStatement cuts ht hb (by assumption))
  · exact hwhole (lies_defaultXmlNamespace cuts ht hb (by assumption))
  · split
    · exact hwhole (lies_function cuts ht hb (by assumption))
    · exact lies_expressionStatement cuts ht hb hr hbound
  · exact lies_expressionStatement cuts ht hb hr hbound

end

/-- Whatever the number of steps, what is built of a tree lies in its tokens. -/
theorem Builder.within_nests {input : Input} {tokens : Array Token} (cuts : input.Cuts tokens)
    (limit n : Nat) : (Builder.within (.ofTokens tokens) limit n).Nests input tokens := by
  induction n with
  | zero => exact ⟨fun _ _ _ => gives_error, fun _ _ _ _ _ _ _ => gives_error⟩
  | succ n ih =>
    exact ⟨fun _ _ ht => lies_expression cuts ht ih,
      fun _ _ _ _ ht hr hbound => lies_statement cuts ht ih hr hbound⟩

end ScriptTree
