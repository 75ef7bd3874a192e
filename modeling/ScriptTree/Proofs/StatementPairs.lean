import ScriptTree.Proofs.LoweringPairs

/-! Two lowerings side by side: statements and scripts. -/
namespace ScriptTree
open Lowered

namespace Pairing
variable {w : Pairing} {b b' : Builder} {t t' : Concrete} {ts ts' : List Concrete}
  {x x' : Option Concrete} {a : Ancestry}

theorem semicolon?_eq (h : w.same t t') (hx : Option.Rel w.same x x') :
    w.cx.semicolon? t' x' = w.cx.semicolon? t x := by
  unfold Lowering.semicolon?
  rw [w.start_eq h, w.after_eq h]
  cases hx with
  | none => rfl
  | some hx =>
    dsimp only [Option.map_some]
    rw [w.after_eq hx]

/-- A keyword before a part that may be left out. -/
theorem keyword?_before_eq (hx : Option.Rel w.same x x') (kind : Kind) (start : Nat) :
    (x'.bind fun e => w.cx.keyword? kind start e.start) =
      x.bind fun e => w.cx.keyword? kind start e.start := by
  cases hx with
  | none => rfl
  | some hx =>
    dsimp only [Option.bind_some]
    rw [w.start_eq hx]

theorem namespaceParts_eq (h : List.Forall₂ w.same ts ts') :
    w.cx.namespaceParts ts' = w.cx.namespaceParts ts := by
  induction h with
  | nil => rfl
  | cons ht _ ih =>
    rw [Lowering.namespaceParts, Lowering.namespaceParts, w.kind_eq ht, w.start_eq ht, ih]

theorem map_after_eq (h : List.Forall₂ w.same ts ts') : ts'.map (·.after) = ts.map (·.after) := by
  induction h with
  | nil => rfl
  | cons ht _ ih => rw [List.map_cons, List.map_cons, w.after_eq ht, ih]

theorem forall₂_dropLast (h : List.Forall₂ w.same ts ts') :
    List.Forall₂ w.same ts.dropLast ts'.dropLast := by
  rw [List.dropLast_eq_take, List.dropLast_eq_take, h.length_eq]
  exact List.forall₂_take _ h

/-- The last of some trees, of which there is at least one. -/
theorem same_getLast?_getD (h : List.Forall₂ w.same ts ts') (ht : w.same t t') :
    w.same (ts.getLast?.getD t) (ts'.getLast?.getD t') := by
  have hlast := rel_getLast? h
  generalize ts.getLast? = x at hlast ⊢
  generalize ts'.getLast? = y at hlast ⊢
  cases hlast with
  | none => exact ht
  | some hu => exact hu

theorem after_getD_eq
    (hx : Option.Rel (fun u u' => w.same u u' ∧ u.kind.ordersChildren = false) x x')
    (ht : w.same t t') : (x'.getD t').after = (x.getD t).after := by
  cases hx with
  | none => exact w.after_eq ht
  | some hu => exact w.after_eq hu.1

theorem grown_keyword? {d : Nat} (hd : d ≤ w.limit + 2) (word : Option Keyword) :
    ∀ c ∈ (word.map Node.keyword).toList, w.Grown d c := by
  intro c hc
  obtain ⟨word, -, rfl⟩ := Option.map_eq_some_iff.mp (Option.mem_toList.mp hc)
  exact grown_keyword hd word

theorem isNamed_eq (h : Option.Rel w.same (t.child? 0) (t'.child? 0)) :
    Lowering.isNamed t' = Lowering.isNamed t := by
  unfold Lowering.isNamed
  generalize t.child? 0 = x at h ⊢
  generalize t'.child? 0 = y at h ⊢
  cases h with
  | none => rfl
  | some hu =>
    rw [Option.any_some, Option.any_some, w.kind_eq hu]

variable (hb : b.Pairs w b')
include hb

section
variable (h : w.same t t') (hk : t.kind.ordersChildren = false) (hd : a.depth ≤ w.limit)
include h hk hd

omit hk in
theorem alike_expressionStatement (bound : Nat) :
    Alike w.limit (w.Grown a.depth) (w.cx.expressionStatement b t a bound)
      (w.cx.expressionStatement b' t' a bound) := by
  unfold Lowering.expressionStatement
  rw [w.isEmpty_eq h, w.after_eq h]
  refine (alike_part hb h).bind fun inside hinside => .given ?_
  exact grown_node (by omega) rfl (List.forall_mem_singleton.mpr hinside)

theorem alike_constStatement :
    Alike w.limit (w.Gathered .constStatement a.depth) (w.cx.constStatement b t a)
      (w.cx.constStatement b' t' a) := by
  have hchildren := w.children h hk
  unfold Lowering.constStatement
  rw [rangeOf_eq h, w.start_eq h, commas_eq hchildren, semicolon?_eq h (rel_getLast? hchildren)]
  refine .step fun word _ => ?_
  refine (alike_mapM hchildren fun hu => alike_declarator hb hu (Nat.succ_le_succ hd) rfl).bind
    fun declarations hdeclarations => ?_
  refine .step fun commas _ => .given ⟨rfl, List.forall_mem_cons.mpr ⟨?_, hdeclarations⟩⟩
  exact grown_keyword (by omega) word

theorem alike_ifStatement :
    Alike w.limit (w.Grown a.depth) (w.cx.ifStatement b t a) (w.cx.ifStatement b' t' a) := by
  have helse := child? h hk 2
  have hinside : a.depth + 1 ≤ w.limit + 2 := by omega
  unfold Lowering.ifStatement
  rw [rangeOf_eq h, w.start_eq h, w.after_eq h]
  refine .step fun word _ => ?_
  refine alike_child h (child? h hk 0) fun hcondition => ?_
  refine alike_child h (child? h hk 1) fun hthen => ?_
  dsimp only
  rw [w.start_eq hcondition, w.after_eq hcondition, w.start_eq hthen, w.after_eq hthen,
    keyword?_before_eq helse]
  refine (alike_part hb hcondition).bind fun condition hcondition => ?_
  refine (alike_body hb hthen).bind fun thenStatement hthen => ?_
  refine (alike_optional helse fun hu => alike_body hb hu).bind fun elseStatement helse => ?_
  have hword := grown_keyword hinside word
  have hparts : ∀ c ∈ [.keyword word, condition, thenStatement], w.Grown (a.depth + 1) c := by
    simp [hword, hcondition, hthen]
  refine .given (grown_node (by omega) rfl ?_)
  refine List.forall_mem_append.mpr ⟨List.forall_mem_append.mpr ⟨hparts, ?_⟩, ?_⟩
  · exact grown_keyword? hinside _
  · simpa using helse

theorem alike_whileStatement :
    Alike w.limit (w.Grown a.depth) (w.cx.whileStatement b t a) (w.cx.whileStatement b' t' a) := by
  unfold Lowering.whileStatement
  rw [rangeOf_eq h, w.start_eq h, w.after_eq h]
  refine .step fun word _ => ?_
  refine alike_child h (child? h hk 0) fun hcondition => ?_
  refine alike_child h (child? h hk 1) fun hbody => ?_
  rw [w.start_eq hcondition, w.after_eq hcondition, w.start_eq hbody]
  refine (alike_part hb hcondition).bind fun condition hcondition => ?_
  refine (alike_body hb hbody).bind fun body hbody => .given ?_
  have hword := grown_keyword (w := w) (d := a.depth + 1) (by omega) word
  exact grown_node (by omega) rfl (by simp [Node.children, hword, hcondition, hbody])

theorem alike_doWhileStatement :
    Alike w.limit (w.Grown a.depth) (w.cx.doWhileStatement b t a)
      (w.cx.doWhileStatement b' t' a) := by
  have hinside : a.depth + 1 ≤ w.limit + 2 := by omega
  unfold Lowering.doWhileStatement
  rw [rangeOf_eq h, w.start_eq h, w.after_eq h]
  refine .step fun word _ => ?_
  refine alike_child h (child? h hk 0) fun hbody => ?_
  refine alike_child h (child? h hk 1) fun hcondition => ?_
  rw [w.after_eq hbody, w.start_eq hcondition, w.after_eq hcondition]
  refine (alike_body hb hbody).bind fun body hbody => ?_
  refine (alike_part hb hcondition).bind fun condition hcondition => ?_
  have hword := grown_keyword hinside word
  refine .given (grown_node (by omega) rfl ?_)
  refine List.forall_mem_append.mpr ⟨List.forall_mem_append.mpr ⟨?_, ?_⟩, ?_⟩
  · simp [hword, hbody]
  · exact grown_keyword? hinside _
  · exact List.forall_mem_singleton.mpr hcondition

theorem alike_throwStatement :
    Alike w.limit (w.Grown a.depth) (w.cx.throwStatement b t a) (w.cx.throwStatement b' t' a) := by
  unfold Lowering.throwStatement
  refine alike_child h (child? h hk 0) fun hexception => ?_
  rw [rangeOf_eq h, w.start_eq h, semicolon?_eq h (.some hexception)]
  refine .step fun word _ => ?_
  refine (alike_part hb hexception).bind fun exception hexception => .given ?_
  have hword := grown_keyword (w := w) (d := a.depth + 1) (by omega) word
  exact grown_node (by omega) rfl (by simp [Node.children, hword, hexception])

theorem alike_returnStatement :
    Alike w.limit (w.Grown a.depth) (w.cx.returnStatement b t a)
      (w.cx.returnStatement b' t' a) := by
  have hvalue := child? h hk 0
  unfold Lowering.returnStatement
  rw [rangeOf_eq h, w.start_eq h, semicolon?_eq h hvalue]
  refine (alike_optional hvalue fun hu => alike_part hb hu).bind fun value hvalue => ?_
  refine .step fun word _ => .given ?_
  have hword := grown_keyword (w := w) (d := a.depth + 1) (by omega) word
  exact grown_node (by omega) rfl (by simpa [Node.children, hword] using hvalue)

omit hb in
theorem alike_jumpStatement :
    Alike w.limit (w.Grown a.depth) (w.cx.jumpStatement t) (w.cx.jumpStatement t') := by
  have hlabel := child? h hk 0
  have hinside : a.depth + 1 ≤ w.limit + 2 := by omega
  have hlabels : (t'.child? 0).map w.cx.label = (t.child? 0).map w.cx.label := by
    generalize t.child? 0 = x at hlabel ⊢
    generalize t'.child? 0 = y at hlabel ⊢
    cases hlabel with
    | none => rfl
    | some hl => exact congrArg some (label_eq hl)
  unfold Lowering.jumpStatement
  rw [w.kind_eq h, rangeOf_eq h, w.start_eq h, semicolon?_eq h hlabel, hlabels]
  refine .step fun word _ => .given (grown_node (by omega) rfl ?_)
  refine List.forall_mem_cons.mpr ⟨grown_keyword hinside word, fun c hc => ?_⟩
  obtain ⟨l, -, rfl⟩ := Option.map_eq_some_iff.mp (Option.mem_toList.mp hc)
  exact grown_leaf hinside rfl rfl

theorem alike_labelledStatement :
    Alike w.limit (w.Grown a.depth) (w.cx.labelledStatement b t a)
      (w.cx.labelledStatement b' t' a) := by
  unfold Lowering.labelledStatement
  refine alike_child h (child? h hk 0) fun hname => ?_
  refine alike_child h (child? h hk 1) fun hstatement => ?_
  rw [rangeOf_eq h, w.after_eq h, label_eq hname, w.after_eq hname, w.start_eq hstatement]
  refine (alike_body hb hstatement).bind fun statement hstatement => ?_
  refine .given (grown_node (by omega) rfl (List.forall_mem_cons.mpr ⟨?_, ?_⟩))
  · exact grown_leaf (by omega) rfl rfl
  · exact List.forall_mem_singleton.mpr hstatement

theorem alike_withStatement :
    Alike w.limit (w.Grown a.depth) (w.cx.withStatement b t a) (w.cx.withStatement b' t' a) := by
  unfold Lowering.withStatement
  refine alike_child h (child? h hk 0) fun hobject => ?_
  refine alike_child h (child? h hk 1) fun hstatement => ?_
  rw [rangeOf_eq h, w.start_eq h, w.after_eq h, w.start_eq hobject, w.after_eq hobject,
    w.start_eq hstatement]
  refine .step fun word _ => ?_
  refine (alike_part hb hobject).bind fun object hobject => ?_
  refine (alike_body hb hstatement).bind fun statement hstatement => .given ?_
  have hword := grown_keyword (w := w) (d := a.depth + 1) (by omega) word
  exact grown_node (by omega) rfl (by simp [Node.children, hword, hobject, hstatement])

theorem alike_defaultXmlNamespace :
    Alike w.limit (w.Grown a.depth) (w.cx.defaultXmlNamespace b t a)
      (w.cx.defaultXmlNamespace b' t' a) := by
  have hinside : a.depth + 1 ≤ w.limit + 2 := by omega
  have hchildren := w.children h hk
  unfold Lowering.defaultXmlNamespace
  rw [w.kind_eq h, rangeOf_eq h]
  generalize t.children = ts at hchildren ⊢
  generalize t'.children = ts' at hchildren ⊢
  rcases hchildren with _ | ⟨hdefault, _ | ⟨hxml, _ | ⟨hnext, hrest⟩⟩⟩
  · exact .failed _
  · exact .failed _
  · exact .failed _
  dsimp only
  have hmiddle := forall₂_dropLast (List.Forall₂.cons hnext hrest)
  have hvalue := same_getLast?_getD hrest hnext
  rw [namespaceParts_eq (hmiddle), w.start_eq hdefault,
    w.start_eq hxml, semicolon?_eq h (.some hvalue)]
  refine .step fun parts _ => .step fun word _ => .step fun xmlWord _ => ?_
  refine (alike_part hb hvalue).bind fun value hvalue => .given (grown_node (by omega) rfl ?_)
  refine List.forall_mem_append.mpr ⟨List.forall_mem_append.mpr ⟨?_, ?_⟩, ?_⟩
  · simp [grown_keyword hinside]
  · exact grown_keyword? hinside _
  · exact List.forall_mem_singleton.mpr hvalue

end

/-! Loops. -/

section
variable {head head' body body' : Concrete} (h : w.same t t') (hhead : w.same head head')
  (hbody : w.same body body') (hk : head.kind.ordersChildren = false) (hd : a.depth ≤ w.limit)
include h hhead hbody hk hd

theorem alike_forStatement :
    Alike w.limit (w.Grown a.depth) (w.cx.forStatement b t head body a)
      (w.cx.forStatement b' t' head' body' a) := by
  unfold Lowering.forStatement
  rw [rangeOf_eq h, w.start_eq h, w.after_eq h, w.start_eq hhead, w.start_eq hbody]
  refine .step fun word _ => ?_
  refine alike_child hhead (child? hhead hk 0) fun hinitial => ?_
  refine alike_child hhead (child? hhead hk 1) fun hcondition => ?_
  refine alike_child hhead (child? hhead hk 2) fun hstep => ?_
  rw [w.after_eq hinitial, w.start_eq hcondition, w.after_eq hcondition, w.start_eq hstep,
    w.after_eq hstep]
  refine (alike_part hb hinitial).bind fun initial hinitial => ?_
  refine (alike_part hb hcondition).bind fun condition hcondition => ?_
  refine (alike_part hb hstep).bind fun step hstep => ?_
  refine (alike_body hb hbody).bind fun body hbody => .given ?_
  have hword := grown_keyword (w := w) (d := a.depth + 1) (by omega) word
  exact grown_node (by omega) rfl
    (by simp [Node.children, hword, hinitial, hcondition, hstep, hbody])

theorem alike_forInStatement :
    Alike w.limit (w.Grown a.depth) (w.cx.forInStatement b t head body a)
      (w.cx.forInStatement b' t' head' body' a) := by
  have hinside : a.depth + 1 ≤ w.limit + 2 := by omega
  unfold Lowering.forInStatement
  rw [w.kind_eq h, rangeOf_eq h, w.start_eq h, w.after_eq h, w.start_eq hhead, w.start_eq hbody]
  refine .step fun word _ => ?_
  refine alike_child hhead (child? hhead hk 0) fun {item _} hitem => ?_
  refine alike_child hhead (child? hhead hk 1) fun {iterator _} hiterator => ?_
  rw [w.after_eq hitem, w.start_eq hiterator, w.after_eq hiterator]
  cases w.cx.keyword? .inKeyword item.after iterator.start with
  | none => exact .failed _
  | some inWord =>
    refine (alike_part hb hitem).bind fun item hitem => ?_
    refine (alike_part hb hiterator).bind fun iterator hiterator => ?_
    refine (alike_body hb hbody).bind fun body hbody => .given (grown_node (by omega) rfl ?_)
    refine List.forall_mem_cons.mpr ⟨grown_keyword hinside word, ?_⟩
    refine List.forall_mem_append.mpr ⟨grown_keyword? hinside _, ?_⟩
    simp [hitem, grown_keyword hinside inWord, hiterator, hbody]

end

theorem alike_forLoop (h : w.same t t') (hk : t.kind.ordersChildren = false)
    (hd : a.depth ≤ w.limit) :
    Alike w.limit (w.Grown a.depth) (w.cx.forLoop b t a) (w.cx.forLoop b' t' a) := by
  unfold Lowering.forLoop
  refine alike_child h (child? h hk 0) fun {head _} hhead => ?_
  refine alike_child h (child? h hk 1) fun hbody => ?_
  rw [w.kind_eq h, w.kind_eq hhead]
  split
  · exact alike_forStatement hb h hhead hbody (by rw [‹head.kind = _›]; rfl) hd
  · exact alike_forInStatement hb h hhead hbody (by rw [‹head.kind = _›]; rfl) hd
  · exact .failed _

/-! Clauses. -/

section
variable {d : Nat} (h : w.same t t') (hk : t.kind.ordersChildren = false) (hd : d ≤ w.limit + 1)
  (ha : a.depth = d)
include h hk hd ha

theorem alike_caseClause :
    Alike w.limit (w.Grown d) (w.cx.caseClause b t a) (w.cx.caseClause b' t' a) := by
  subst ha
  have hstatements := List.forall₂_drop 1 (w.children h hk)
  unfold Lowering.caseClause
  dsimp only
  rw [rangeOf_eq h, w.start_eq h, w.after_eq h, firstStart_eq hstatements]
  refine .step fun word _ => ?_
  refine alike_child h (child? h hk 0) fun hcondition => ?_
  rw [w.after_eq hcondition]
  refine (alike_part hb hcondition).bind fun condition hcondition => ?_
  refine (alike_mapM hstatements fun hu => alike_body hb hu).bind fun statements hstatements => ?_
  have hword := grown_keyword (Nat.succ_le_succ hd) word
  refine .given (grown_node (by omega) rfl ?_)
  exact List.forall_mem_cons.mpr ⟨hword, List.forall_mem_cons.mpr ⟨hcondition, hstatements⟩⟩

theorem alike_defaultClause :
    Alike w.limit (w.Grown d) (w.cx.defaultClause b t a) (w.cx.defaultClause b' t' a) := by
  subst ha
  have hstatements := w.children h hk
  unfold Lowering.defaultClause
  rw [rangeOf_eq h, w.start_eq h, w.after_eq h, firstStart_eq hstatements]
  refine .step fun word _ => ?_
  refine (alike_mapM hstatements fun hu => alike_body hb hu).bind fun statements hstatements => ?_
  have hword := grown_keyword (Nat.succ_le_succ hd) word
  exact .given (grown_node (by omega) rfl (List.forall_mem_cons.mpr ⟨hword, hstatements⟩))

omit hk in
theorem alike_switchClause :
    Alike w.limit (w.Grown d) (w.cx.switchClause b t a) (w.cx.switchClause b' t' a) := by
  unfold Lowering.switchClause
  rw [w.kind_eq h]
  split
  · exact alike_caseClause hb h (by rw [‹t.kind = _›]; rfl) hd ha
  · exact alike_defaultClause hb h (by rw [‹t.kind = _›]; rfl) hd ha
  · exact .failed _

theorem alike_finallyClause :
    Alike w.limit (w.Grown d) (w.cx.finallyClause b t a) (w.cx.finallyClause b' t' a) := by
  subst ha
  have hinside : a.depth + 1 ≤ w.limit + 2 := Nat.succ_le_succ hd
  unfold Lowering.finallyClause
  rw [rangeOf_eq h, w.start_eq h]
  refine .step fun word _ => ?_
  refine alike_child h (child? h hk 0) fun hbody => ?_
  refine (alike_block hb hbody hinside rfl).bind fun body hbody => .given ?_
  have hword := grown_keyword hinside word
  exact grown_node (by omega) rfl (by simp [Node.children, hword, hbody])

omit hd in
/-- A filter stands as deep as it can be, but its condition is looked at. -/
theorem alike_exceptionFilter :
    Alike w.limit (w.Grown d) (w.cx.exceptionFilter b t a) (w.cx.exceptionFilter b' t' a) := by
  subst ha
  unfold Lowering.exceptionFilter
  rw [rangeOf_eq h, w.start_eq h]
  refine .step fun word _ => ?_
  refine alike_child h (child? h hk 0) fun hcondition => ?_
  refine (hb.expression hcondition _).bind fun condition ⟨hdepth, hcondition⟩ => .given ?_
  rw [Ancestry.enter_depth] at hdepth hcondition
  have hword := grown_keyword (w := w) (d := a.depth + 1) (by omega) word
  exact grown_node (by omega) rfl (by simp [Node.children, hword, hcondition])

theorem alike_catchClause :
    Alike w.limit (w.Grown d) (w.cx.catchClause b t a) (w.cx.catchClause b' t' a) := by
  subst ha
  have hinside : a.depth + 1 ≤ w.limit + 2 := Nat.succ_le_succ hd
  have hchildren := w.children h hk
  have hfilter : Option.Rel (fun u u' => w.same u u' ∧ u.kind.ordersChildren = false)
      ((t.child? 1).filter (·.kind == .ifKeyword))
      ((t'.child? 1).filter (·.kind == .ifKeyword)) := by
    have hsecond := child? h hk 1
    generalize t.child? 1 = x at hsecond ⊢
    generalize t'.child? 1 = y at hsecond ⊢
    cases hsecond with
    | none => exact .none
    | some hu =>
      rw [Option.filter_some, Option.filter_some, w.kind_eq hu]
      split
      · rename_i hkind
        exact .some ⟨hu, by rw [beq_iff_eq.mp hkind]; rfl⟩
      · exact .none
  unfold Lowering.catchClause
  rw [w.kind_eq h, rangeOf_eq h, w.start_eq h]
  refine .step fun word _ => ?_
  generalize (t.child? 1).filter (·.kind == .ifKeyword) = filter at hfilter ⊢
  generalize (t'.child? 1).filter (·.kind == .ifKeyword) = filter' at hfilter ⊢
  generalize t.children = ts at hchildren ⊢
  generalize t'.children = ts' at hchildren ⊢
  rcases hchildren with _ | ⟨hfirst, _ | ⟨hsecond, hrest⟩⟩
  · exact .failed _
  · exact .failed _
  have hlast := same_getLast?_getD hrest hsecond
  refine (alike_optional hfilter
    fun hu => alike_exceptionFilter hb hu.1 hu.2 rfl).bind fun filterNode hfilterNode => ?_
  refine (alike_identifier hfirst hinside).bind fun exception hexception => ?_
  refine (alike_block hb hlast hinside rfl).bind fun body hbody => ?_
  rw [w.start_eq hfirst, w.start_eq hlast, after_getD_eq hfilter hfirst]
  refine .given (grown_node (by omega) rfl ?_)
  have hword := grown_keyword hinside word
  simpa [Node.children, or_imp, forall_and] using ⟨hword, hexception, hfilterNode, hbody⟩

end

section
variable (h : w.same t t') (hd : a.depth ≤ w.limit)
include h hd

theorem alike_switchStatement (hkind : t.kind = .switchKeyword) :
    Alike w.limit (w.Gathered .switchStatement a.depth) (w.cx.switchStatement b t a)
      (w.cx.switchStatement b' t' a) := by
  have hclauses := w.clauses h hkind
  unfold Lowering.switchStatement
  dsimp only
  rw [rangeOf_eq h, w.start_eq h, w.after_eq h, firstStart_eq hclauses, map_after_eq hclauses]
  refine .step fun word _ => ?_
  refine alike_child h (w.subject h hkind) fun hcondition => ?_
  rw [w.start_eq hcondition, w.after_eq hcondition]
  refine (alike_mapM hclauses fun hu => alike_switchClause hb hu (Nat.succ_le_succ hd) rfl).bind
    fun clauses hclauses => ?_
  refine (alike_part hb hcondition).bind fun condition hcondition => .given ⟨rfl, ?_⟩
  have hword := grown_keyword (w := w) (d := a.depth + 1) (by omega) word
  exact List.forall_mem_cons.mpr ⟨hword, List.forall_mem_cons.mpr ⟨hcondition, hclauses⟩⟩

end

theorem alike_tryClauses {d : Nat} (h : List.Forall₂ w.same ts ts') (hd : d ≤ w.limit + 1)
    (ha : a.depth = d) :
    Alike w.limit (fun parts => (∀ n ∈ parts.1, w.Grown d n) ∧ ∀ n ∈ parts.2, w.Grown d n)
      (w.cx.tryClauses b a ts) (w.cx.tryClauses b' a ts') := by
  induction h with
  | nil => exact .given ⟨nofun, nofun⟩
  | @cons t _ _ _ ht _ ih =>
    unfold Lowering.tryClauses
    rw [w.kind_eq ht]
    split
    · refine (alike_catchClause hb ht (by rw [‹t.kind = _›]; rfl) hd ha).bind
        fun clause hclause => ?_
      exact ih.bind fun parts hparts =>
        .given ⟨List.forall_mem_cons.mpr ⟨hclause, hparts.1⟩, hparts.2⟩
    · refine (alike_finallyClause hb ht (by rw [‹t.kind = _›]; rfl) hd ha).bind
        fun clause hclause => ?_
      refine ih.bind fun parts hparts => .given ⟨hparts.1, fun n hn => ?_⟩
      rcases Option.or_eq_some_iff.mp hn with hn | ⟨_, hn⟩
      · exact hparts.2 n hn
      · cases hn
        exact hclause
    · exact .failed _

theorem alike_tryStatement (h : w.same t t') (hk : t.kind.ordersChildren = false)
    (hd : a.depth ≤ w.limit) :
    Alike w.limit (w.Grown a.depth) (w.cx.tryStatement b t a) (w.cx.tryStatement b' t' a) := by
  have hinside : a.depth + 1 ≤ w.limit + 2 := by omega
  unfold Lowering.tryStatement
  rw [rangeOf_eq h, w.start_eq h]
  refine .step fun word _ => ?_
  refine alike_child h (child? h hk 0) fun hbody => ?_
  refine (alike_block hb hbody hinside rfl).bind fun body hbody => ?_
  refine (alike_tryClauses hb (List.forall₂_drop 1 (w.children h hk)) (Nat.succ_le_succ hd)
    rfl).bind fun parts hparts => .given (grown_node (by omega) rfl ?_)
  have hword := grown_keyword hinside word
  simpa [Node.children, or_imp, forall_and] using ⟨hword, hbody, hparts⟩

theorem alike_statement {limit : Nat} (hlimit : w.limit ≤ limit) (h : w.same t t') (bound : Nat) :
    Alike w.limit (w.Grown a.depth) (w.cx.statement w.limit b t a bound)
      (w.cx.statement limit b' t' a bound) := by
  unfold Lowering.statement
  refine (alike_guard hlimit fun hd => ?_).mono fun _ _ hn => hn.2
  rw [w.kind_eq h]
  split
  · exact alike_block hb h (by omega) rfl
  · rw [rangeOf_eq h]
    exact .given (grown_leaf (by omega) rfl rfl)
  · exact grown_of_gathers hb h hd (alike_constStatement hb h (by rw [‹t.kind = _›]; rfl) hd)
      fun _ => .constStatement
  · exact alike_ifStatement hb h (by rw [‹t.kind = _›]; rfl) hd
  · exact alike_whileStatement hb h (by rw [‹t.kind = _›]; rfl) hd
  · exact alike_doWhileStatement hb h (by rw [‹t.kind = _›]; rfl) hd
  iterate 2 exact alike_forLoop hb h (by rw [‹t.kind = _›]; rfl) hd
  · exact grown_of_gathers hb h hd (alike_switchStatement hb h hd ‹t.kind = _›)
      fun _ => .switchStatement
  · exact alike_tryStatement hb h (by rw [‹t.kind = _›]; rfl) hd
  · exact alike_throwStatement hb h (by rw [‹t.kind = _›]; rfl) hd
  · exact alike_returnStatement hb h (by rw [‹t.kind = _›]; rfl) hd
  iterate 2 exact alike_jumpStatement h (by rw [‹t.kind = _›]; rfl) hd
  · exact alike_labelledStatement hb h (by rw [‹t.kind = _›]; rfl) hd
  · exact alike_withStatement hb h (by rw [‹t.kind = _›]; rfl) hd
  · exact alike_defaultXmlNamespace hb h (by rw [‹t.kind = _›]; rfl) hd
  · have hk : t.kind.ordersChildren = false := by rw [‹t.kind = _›]; rfl
    rw [isNamed_eq (child? h hk 0)]
    split
    · exact grown_of_gathers hb h hd (alike_function hb h hk hd) fun _ => .function
    · exact alike_expressionStatement hb h hd bound
  · exact alike_expressionStatement hb h hd bound

end Pairing

/-! Whole scripts. -/

/-- Builders that go equally far down. -/
theorem Builder.within_pairs (w : Pairing) {limit : Nat} (hlimit : w.limit ≤ limit) (n : Nat) :
    (Builder.within w.cx w.limit n).Pairs w (.within w.cx limit n) := by
  induction n with
  | zero =>
    exact ⟨fun h hn => ⟨_, _, _, h, hn⟩, fun _ _ => .tooDeep _, fun _ _ _ => .tooDeep _⟩
  | succ n ih =>
    exact ⟨fun h hn => ⟨_, _, _, h, hn⟩, fun h _ => Pairing.alike_expression ih hlimit h,
      fun h _ bound => Pairing.alike_statement ih hlimit h bound⟩

namespace Pairing

theorem alike_statements (w : Pairing) {limit : Nat} (hlimit : w.limit ≤ limit)
    {root root' : Concrete} (h : List.Forall₂ w.same root.children root'.children)
    (hheight : root'.height = root.height) :
    Alike w.limit (fun ns => ∀ n ∈ ns, w.Grown 0 n) (w.cx.statements w.limit root)
      (w.cx.statements limit root') := by
  unfold Lowering.statements
  rw [hheight]
  exact alike_mapM h fun hu => (Builder.within_pairs w hlimit _).statement hu .root _

/-- Scripts of the same height, if there are any. -/
theorem alike_script (w : Pairing) {tokens : Array Token} (hcx : w.cx = .ofTokens tokens)
    {limit : Nat} (hlimit : w.limit ≤ limit) {tree tree' : Option Concrete}
    (h : Option.Rel (fun root root' => w.same root root' ∧ root'.height = root.height)
      tree tree') :
    Alike w.limit (fun script => ∀ n ∈ script.statements, w.Grown 0 n)
      (Script.ofConcrete tokens w.limit tree) (Script.ofConcrete tokens limit tree') := by
  unfold Script.ofConcrete
  rw [← hcx]
  cases h with
  | none => exact .given nofun
  | @some root _ hroot =>
    obtain ⟨hroot, hheight⟩ := hroot
    dsimp only
    rw [w.kind_eq hroot]
    split
    · have hchildren := w.children hroot (by rw [‹root.kind = _›]; rfl)
      exact (w.alike_statements hlimit hchildren hheight).bind fun _ h => .given h
    · exact .failed _

/-- Trees beside themselves, of a sort to which the children of a tree belong as well. -/
def alone (cx : Lowering) (limit : Nat) (T : Concrete → Prop)
    (hT : ∀ t, T t → ∀ u ∈ t.children, T u) : Pairing where
  cx
  limit
  same t t' := t' = t ∧ T t
  kind_eq h := congrArg Concrete.kind h.1
  start_eq h := congrArg Concrete.start h.1
  after_eq h := congrArg Concrete.after h.1
  content_eq h := congrArg Concrete.content h.1
  isEmpty_eq h := congrArg Concrete.isEmpty h.1
  children := by
    rintro t _ ⟨rfl, ht⟩ _
    exact List.forall₂_same.mpr fun u hu => ⟨rfl, hT _ ht u hu⟩
  items := by
    rintro t _ ⟨rfl, ht⟩ _
    refine List.forall₂_same.mpr fun u hu => ⟨⟨rfl, hT _ ht u hu⟩, ?_⟩
    exact List.forall₂_same.mpr fun v hv => ⟨rfl, hT u (hT _ ht u hu) v hv⟩
  subject := by
    rintro t _ ⟨rfl, ht⟩ _
    exact rel_getElem? (List.forall₂_same.mpr fun u hu => ⟨rfl, hT _ ht u hu⟩) 0
  clauses := by
    rintro t _ ⟨rfl, ht⟩ _
    refine List.forall₂_same.mpr fun u hu => ⟨rfl, hT _ ht u ?_⟩
    exact List.mem_of_mem_drop (List.mem_mergeSort.mp hu)
  parts := by
    rintro t _ ⟨rfl, ht⟩ _
    exact List.forall₂_same.mpr fun u hu => ⟨rfl, hT _ ht u (List.mem_mergeSort.mp hu)⟩

/-- Any trees beside themselves. -/
def any (cx : Lowering) (limit : Nat) : Pairing :=
  alone cx limit (fun _ => True) fun _ _ _ _ => trivial

end Pairing
end ScriptTree
