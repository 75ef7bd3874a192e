import ScriptTree.Proofs.ProgramTotal

/-!
Where the trees of statements begin, in text with faults too. A statement in a list has read a
token, and its tree begins no later than right after the last one that it has read. So the trees of
a list begin in the order in which they are read, also where a tree stands for something missing.
-/
namespace ScriptTree

variable {input : Input} {tokens : Array Token} {r : Rule} {p q e : Nat} {t : Concrete}
  {ts : List Concrete}

/-- The parts of an XML literal go over its first token. -/
theorem Derives.lt_of_xmlParts (h : Derives input .xmlParts p q e ts)
    (hsees : input.Sees p .xmlFragment ∨ input.Sees p .xmlFragmentEnd) : p < q := by
  cases h with
  | leaf => exact Nat.lt_succ_self p
  | missing htag => cases htag
  | xmlText _ hmore => exact hmore.forward.1
  | xmlLast => exact Nat.lt_succ_self p
  | xmlEmbedded _ hinside hclose hmore =>
    have := hinside.forward.1
    have := hclose.forward.1
    have := hmore.forward.1
    omega
  | xmlBroken hfragment hfragmentEnd => exact absurd hsees (by simp [hfragment, hfragmentEnd])

/-- Something missing after a token stands right after it. -/
theorem Input.missingStart_le (input : Input) (hp : 0 < p) (hsize : p ≤ input.significant.size) :
    input.missingStart p ≤ input.afterAt p := by
  obtain ⟨m, rfl⟩ : ∃ m, p = m + 1 := ⟨p - 1, by omega⟩
  rw [missingStart, lastBefore_succ hsize, afterAt_succ hsize]
  exact Nat.min_le_left _ _

/-- An expression begins no later than right after the last token before its end. -/
theorem Derives.start_le_afterAt (hover : input.Over tokens) (h : Derives input r p q e ts)
    (hr : r.buildsExpression = true) (hp : p ≤ input.significant.size) (hq : 0 < q) :
    ∀ t ∈ ts, t.start ≤ input.afterAt q := by
  have hfirst {m q : Nat} (hmq : m < q) (hsize : q ≤ input.significant.size) :
      input.indexAt m ≤ input.afterAt q :=
    Nat.le_of_lt (hover.indexAt_lt_afterAt hsize hmq)
  have hsize := h.forward.2 hp
  induction h with
  | functionOperand _ ih | primaryOf _ ih | memberOf _ ih | trailingOf _ ih | unaryOf _ ih
  | binaryOf _ ih | conditionalOf _ ih | assignmentOf _ ih | expressionOf _ ih =>
    exact ih rfl hp hq hsize
  | invalid hsees _ ih => exact ih rfl hsees.lt_size hq hsize
  | leaf => exact List.forall_mem_singleton.mpr (hfirst (Nat.lt_succ_self _) hsize)
  | missing => exact List.forall_mem_singleton.mpr (input.missingStart_le hq hsize)
  -- A token is read first.
  | paren | array | object | named | unnamed | new | newCall | leading | yield | declaration =>
    exact List.forall_mem_singleton.mpr (hfirst (by grind [Input.Forward, → Derives.forward]) hsize)
  | xml hsees hparts =>
    exact List.forall_mem_singleton.mpr (hfirst (hparts.lt_of_xmlParts hsees) hsize)
  -- The node begins with its first operand, and goes on with a token after it.
  | access ht | index ht | trailed ht | operate ht | choose ht | assign ht | commas ht =>
    refine List.forall_mem_singleton.mpr (Nat.le_trans ((ht.fits hover).start_le hp) ?_)
    exact hfirst (by grind [Input.Forward, → Derives.forward]) hsize
  | call ht _ hlist ih =>
    obtain hlt | rfl := Nat.lt_or_eq_of_le hlist.forward.1
    · exact List.forall_mem_singleton.mpr
        (Nat.le_trans ((ht.fits hover).start_le hp) (hfirst hlt hsize))
    · have hstart := ih rfl hp hq hsize _ List.mem_cons_self
      exact List.forall_mem_singleton.mpr hstart
  | _ => cases hr

/-- A statement that has read a token begins no later than right after the last one. -/
theorem Derives.start_le_afterAt_of_lt (hover : input.Over tokens)
    (h : Derives input .statement p q e [t]) (hpq : p < q) (hp : p ≤ input.significant.size) :
    t.start ≤ input.afterAt q := by
  have hsize := h.forward.2 hp
  have hfirst {m : Nat} (hmq : m < q) : input.indexAt m ≤ input.afterAt q :=
    Nat.le_of_lt (hover.indexAt_lt_afterAt hsize hmq)
  -- A statement that begins with an expression may go on with its end.
  have hinside {r : Rule} {m e : Nat} (hd : Derives input r p m e [t])
      (hr : r.buildsExpression = true) (hmq : m ≤ q) : t.start ≤ input.afterAt q := by
    obtain hlt | rfl := Nat.lt_or_eq_of_le hmq
    · exact Nat.le_trans ((hd.fits hover).start_le hp) (hfirst hlt)
    · exact hd.start_le_afterAt hover hr hp (by omega) t List.mem_cons_self
  cases h with
  | leaf _ htag => cases htag
  | missing htag => cases htag
  | blockStatement hd =>
    cases hd with
    | leaf _ htag => cases htag
    | missing htag => cases htag
    | block => exact hfirst hpq
  | functionStatement hd | nullStatement hd => exact hinside hd rfl (Nat.le_refl q)
  | variableStatement hd hend | expressionStatement _ hd _ hend =>
    exact hinside hd rfl hend.forward.1
  | _ => exact hfirst hpq

/-- The trees of a list of statements begin in the order in which they are read. -/
theorem Derives.starts_sorted (hover : input.Over tokens)
    (h : Derives input .statements p q e ts) (hp : p ≤ input.significant.size) :
    ts.Pairwise fun t u => t.start ≤ u.start := by
  generalize hr : Rule.statements = r at h
  induction h with
  | leaf _ htag =>
    subst hr
    cases htag
  | missing htag =>
    subst hr
    cases htag
  | noMoreStatements => exact .nil
  | nextStatement ht hlt hrest _ ih =>
    have hm := ht.forward.2 hp
    constructor
    · intro u hu
      exact Nat.le_trans (ht.start_le_afterAt_of_lt hover hlt hp)
        (((hrest.fits hover) hm).2.2 u hu).start_ge
    · exact ih hm hr
  | skipped _ _ hm _ _ ih => exact ih hm hr
  | _ => cases hr

/-! Nodes that begin where their first operand does. -/

/-- A tag of trees that are lowered to a node which begins with its first operand. -/
def Kind.leadsWithOperand (k : Kind) : Bool := k == .expr || k.isBinaryOperator

/-- If what a tree is lowered to begins with its first operand, then so does the tree, and the same
is true of that operand. -/
inductive Concrete.LeftFlush : Concrete → Prop where
  | plain {t : Concrete} : t.kind.leadsWithOperand = false → LeftFlush t
  | childless {t : Concrete} : t.children = [] → LeftFlush t
  | operand {t u : Concrete} {us : List Concrete} : t.children = u :: us → u.start = t.start →
      LeftFlush u → LeftFlush t

theorem leadsWithOperand_of_accessTag? {k tag : Kind} (h : Rule.accessTag? k = some tag) :
    tag.leadsWithOperand = false := by
  unfold Rule.accessTag? at h
  split at h <;> cases h <;> rfl

theorem leadsWithOperand_of_leadingOperator? {k tag : Kind}
    (h : Production.leadingOperator? k = some tag) : tag.leadsWithOperand = false := by
  unfold Production.leadingOperator? at h
  split at h <;> cases h <;> rfl

theorem leadsWithOperand_of_trailingOperator? {k tag : Kind}
    (h : Production.trailingOperator? k = some tag) : tag.leadsWithOperand = false := by
  unfold Production.trailingOperator? at h
  split at h <;> cases h <;> rfl

/-- In an expression, an operation begins where its first operand does. -/
theorem Derives.leftFlush (h : Derives input r p q e ts) (hr : r.buildsExpression = true) :
    ∀ t ∈ ts, t.LeftFlush := by
  induction h with
  | functionOperand _ ih | primaryOf _ ih | memberOf _ ih | trailingOf _ ih | unaryOf _ ih
  | binaryOf _ ih | conditionalOf _ ih | assignmentOf _ ih | expressionOf _ ih
  | invalid _ _ ih => exact ih rfl
  | leaf | missing => exact List.forall_mem_singleton.mpr (.childless rfl)
  | paren | array | object | xml | named | unnamed | new | newCall | index | call | choose
  | yield | commas | declaration => exact List.forall_mem_singleton.mpr (.plain rfl)
  | access _ _ htag =>
    exact List.forall_mem_singleton.mpr (.plain (leadsWithOperand_of_accessTag? htag))
  | trailed _ _ htag =>
    exact List.forall_mem_singleton.mpr (.plain (leadsWithOperand_of_trailingOperator? htag))
  | leading _ htag =>
    exact List.forall_mem_singleton.mpr (.plain (leadsWithOperand_of_leadingOperator? htag))
  | operate _ _ _ _ _ _ ih | assign _ _ _ _ ih =>
    exact List.forall_mem_singleton.mpr (.operand rfl rfl (ih rfl _ List.mem_cons_self))
  | _ => cases hr

theorem Derives.leftFlush_of_statement (h : Derives input .statement p q e [t]) :
    t.LeftFlush := by
  cases h with
  | leaf _ htag => cases htag
  | missing htag => cases htag
  | blockStatement hd =>
    cases hd with
    | leaf _ htag => cases htag
    | missing htag => cases htag
    | block => exact .plain rfl
  | functionStatement hd | nullStatement hd | variableStatement hd | expressionStatement _ hd =>
    exact hd.leftFlush rfl t List.mem_cons_self
  | forStatement =>
    apply Concrete.LeftFlush.plain
    dsimp only [Input.nodeAt, Concrete.inner]
    split <;> rfl
  | jumpStatement _ hk =>
    apply Concrete.LeftFlush.plain
    obtain rfl | rfl := hk <;> rfl
  | _ => exact .plain rfl

theorem Derives.leftFlush_of_statements (h : Derives input .statements p q e ts) :
    ∀ t ∈ ts, t.LeftFlush := by
  generalize hr : Rule.statements = r at h
  induction h with
  | leaf _ htag =>
    subst hr
    cases htag
  | missing htag =>
    subst hr
    cases htag
  | noMoreStatements => nofun
  | nextStatement ht _ _ _ ih => exact List.forall_mem_cons.mpr ⟨ht.leftFlush_of_statement, ih hr⟩
  | skipped _ _ _ _ _ ih => exact ih hr
  | _ => cases hr

end ScriptTree
