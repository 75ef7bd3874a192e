import ScriptTree.Lowering.Basic
import ScriptTree.Proofs.TreeBounds

/-!
Where the trees of well-formed text stand. A tree that a rule builds of the tokens of rank `p` up to
`q` without a report begins with the first of these tokens and ends with the last; only statements
may leave out a semicolon at their end.
-/
namespace ScriptTree

/-- Tree `t` is made of the tokens of rank `p` up to `q`. -/
structure Input.Stands (input : Input) (p q : Nat) (t : Concrete) : Prop where
  lt : p < q
  le_size : q ≤ input.significant.size
  start_eq : t.start = input.indexAt p
  after_eq : t.after = input.afterAt q

variable {input : Input} {tokens : Array Token} {p m q e : Nat} {k : Kind} {r : Rule}
  {t u : Concrete} {ts us : List Concrete}

/-- A token that has to be there is there if nothing is reported. -/
theorem Expects.sees (h : Expects input k p q e) :
    e = 0 → input.Sees p k ∧ q = p + 1 := by
  intro he
  cases h with
  | here hsees => exact ⟨hsees, rfl⟩
  | afterOne | missing => cases he

/-- Rules that read at least one token, unless something is reported. -/
def Rule.reads : Rule → Bool
  | .items | .members | .statements | .alternative | .clause | .clauses | .catches
  | .optional _ => false
  | .separated r => r.reads
  | _ => true

theorem Input.Forward.trans (h : input.Forward p m) (h' : input.Forward m q) :
    input.Forward p q :=
  ⟨Nat.le_trans h.1 h'.1, fun hp => h'.2 (h.2 hp)⟩

theorem Derives.le (h : Derives input r p q e ts) : p ≤ q := h.forward.1

theorem Expects.le (h : Expects input k p q e) : p ≤ q := h.forward.1

theorem EndsStatement.le (h : EndsStatement input p q e) : p ≤ q := h.forward.1

theorem Expects.lt (h : Expects input k p q e) (he : e = 0) : p < q := by
  rw [(h.sees he).2]
  exact Nat.lt_succ_self p

theorem Derives.lt (h : Derives input r p q e ts) (he : e = 0) (hr : r.reads = true) : p < q := by
  induction h with
  -- Rules that may read nothing.
  | nothing | something | noMoreItems | hole | lastItem | item | noMoreMembers | lastMember
  | nextMember | noMoreStatements | nextStatement | skipped | noElse | orElse | noClause | clauseOf
  | noMoreClauses | nextClause | strayTokens | noMoreCatches | nextCatch => cases hr
  -- What is reported.
  | missing | lacking | xmlBroken | invalid => cases he
  -- Rules that are another rule.
  | one _ ih => exact ih he hr
  | functionOperand _ ih | primaryOf _ ih | memberOf _ ih | trailingOf _ ih | unaryOf _ ih
  | binaryOf _ ih | conditionalOf _ ih | assignmentOf _ ih | expressionOf _ ih | declared _ ih
  | initialOf _ ih | initialVariables _ ih | blockStatement _ ih | functionStatement _ ih
  | nullStatement _ _ ih | xml _ _ ih => exact ih he rfl
  -- Rules that begin with a token.
  | leaf | present | xmlLast | emptyStatement => exact Nat.lt_succ_self _
  | xmlText _ hd | new _ hd | leading _ _ hd | yield _ hd | declaration _ hd | filter _ hd
  | finalClause _ hd => exact hd.le
  | labelledStatement _ _ _ hd => exact Nat.lt_of_succ_lt hd.le
  | paren _ hd hclose | array _ hd hclose | object _ hd hclose =>
    exact Nat.lt_of_lt_of_le hd.le hclose.le
  | newCall _ hd _ hrest | whileStatement _ hd hrest | withStatement _ hd hrest
  | unnamed _ hd hrest => exact Nat.lt_of_lt_of_le hd.le hrest.le
  | constStatement _ hd hend | throwStatement _ hd hend => exact Nat.lt_of_lt_of_le hd.le hend.le
  | returnStatement _ hd _ hend | jumpStatement _ _ hd _ hend =>
    exact Nat.lt_of_lt_of_le hd.le hend.le
  | defaultClause _ hcolon hd => exact Nat.lt_of_lt_of_le hcolon.le hd.le
  | named _ _ _ hd hrest => exact Nat.lt_of_lt_of_le (Nat.lt_of_succ_lt hd.le) hrest.le
  | ifStatement _ hd₁ hd₂ hd₃ | tryStatement _ hd₁ hd₂ hd₃ =>
    exact (hd₁.forward.trans (hd₂.forward.trans hd₃.forward)).1
  | xmlEmbedded _ hd hclose hrest | caseClause _ hd hclose hrest =>
    exact (hd.forward.trans (hclose.forward.trans hrest.forward)).1
  | getter _ hd hopen hclose hrest =>
    exact (hd.forward.trans (hopen.forward.trans (hclose.forward.trans hrest.forward))).1
  | setter _ hd hopen hd' hclose hrest =>
    have hname := hd.forward.trans hopen.forward
    exact (hname.trans (hd'.forward.trans (hclose.forward.trans hrest.forward))).1
  | catchClause _ hopen hd hd' hclose hrest =>
    have hexception := hopen.forward.trans hd.forward
    exact (hexception.trans (hd'.forward.trans (hclose.forward.trans hrest.forward))).1
  | switchStatement _ hd hopen hd' hclose =>
    exact (hd.forward.trans (hopen.forward.trans (hd'.forward.trans hclose.forward))).1
  | doStatement _ hd hwhile hd' hend =>
    exact (hd.forward.trans (hwhile.forward.trans (hd'.forward.trans hend.forward))).1
  | namespaceStatement _ _ hd₁ hd₂ hd₃ hend =>
    have hvalue := hd₂.forward.trans (hd₃.forward.trans hend.forward)
    exact Nat.lt_of_lt_of_le (Nat.lt_of_succ_lt hd₁.le) hvalue.1
  | forStatement _ _ hopen hd hclose hrest =>
    have hhead := hopen.forward.trans (hd.forward.trans (hclose.forward.trans hrest.forward))
    refine Nat.lt_of_lt_of_le ?_ hhead.1
    split <;> omega
  -- Rules that begin with a token that has to be there.
  | noItems hopen hclose => exact Nat.lt_of_lt_of_le (hopen.lt (by omega)) hclose.le
  | someItems hopen hd hclose | block hopen hd hclose | condition hopen hd hclose =>
    exact Nat.lt_of_lt_of_le (hopen.lt (by omega)) (hd.forward.trans hclose.forward).1
  | steps hd₁ hfirst hd₂ hsecond hd₃ =>
    refine Nat.lt_of_le_of_lt hd₁.le (Nat.lt_of_lt_of_le (hfirst.lt (by omega)) ?_)
    exact (hd₂.forward.trans (hsecond.forward.trans hd₃.forward)).1
  -- Rules that begin with another rule.
  | more _ _ hrest ih => exact Nat.lt_trans (ih (by omega) hr) hrest.le
  | access _ _ _ hrest ih | assign _ _ _ hrest ih | operate _ _ _ _ _ hrest ih
  | commas _ _ hrest ih | initialized _ _ hrest ih | iterate _ _ hrest ih =>
    exact Nat.lt_trans (ih (by omega) rfl) hrest.le
  | call _ _ hrest ih => exact Nat.lt_of_lt_of_le (ih (by omega) rfl) hrest.le
  | index _ _ hd hclose ih =>
    exact Nat.lt_trans (ih (by omega) rfl) (hd.forward.trans hclose.forward).1
  | trailed _ _ _ _ ih => exact Nat.lt_succ_of_lt (ih he rfl)
  | choose _ _ hd hcolon hrest ih =>
    exact Nat.lt_trans (ih (by omega) rfl) (hd.forward.trans (hcolon.forward.trans hrest.forward)).1
  | propertyInit _ hcolon hrest ih =>
    exact Nat.lt_of_lt_of_le (ih (by omega) rfl) (hcolon.forward.trans hrest.forward).1
  | variableStatement _ hend ih => exact Nat.lt_of_lt_of_le (ih (by omega) rfl) hend.le
  | expressionStatement _ _ _ hend ih => exact Nat.lt_of_lt_of_le (ih (by omega) rfl) hend.le

/-- A node ends where it was closed: no tree inside it goes further. -/
theorem Input.after_nodeAt (h : input.Within p q (input.nodeAt q k m ts)) (hq : 0 < q)
    (hsize : q ≤ input.significant.size) (hm : m ≤ input.indexAt (q - 1)) :
    (input.nodeAt q k m ts).after = input.afterAt q := by
  obtain ⟨l, rfl⟩ : ∃ l, q = l + 1 := ⟨q - 1, by omega⟩
  rw [Nat.add_sub_cancel] at hm
  have hlast : ∃ i, (input.nodeAt (l + 1) k m ts).lastToken? = some i ∧ input.indexAt l ≤ i := by
    rw [nodeAt, Concrete.lastToken?_inner, lastBefore_succ hsize, Option.filter_some,
      decide_eq_true hm, if_pos rfl]
    cases Concrete.lastTokenOf? ts with
    | none => exact ⟨_, rfl, Nat.le_refl _⟩
    | some i => exact ⟨_, rfl, Nat.le_max_left _ _⟩
  obtain ⟨i, hi, hle⟩ := hlast
  have hlt := h.last_lt i hi
  rw [afterAt_succ hsize] at hlt ⊢
  rw [Concrete.after, hi]
  dsimp only
  omega

theorem Input.Fits.stands (h : input.Fits p q [input.nodeAt q k m ts]) (hover : input.Over tokens)
    (hp : p ≤ input.significant.size) (hlt : p < q) (hm : m = input.indexAt p) :
    input.Stands p q (input.nodeAt q k m ts) := by
  obtain ⟨_, hq, hts⟩ := h hp
  refine ⟨hlt, hq, hm, ?_⟩
  refine after_nodeAt (hts _ List.mem_cons_self) (by omega) hq ?_
  rw [hm]
  exact hover.indexAt_mono (by omega)

theorem Input.Sees.stands_leafAt {tag : Kind} (h : input.Sees p k) :
    input.Stands p (p + 1) (input.leafAt p tag) where
  lt := Nat.lt_succ_self p
  le_size := h.lt_size
  start_eq := rfl
  after_eq := by
    rw [Concrete.after, leafAt, Concrete.lastToken?_leaf, afterAt_succ h.lt_size]

theorem Input.Stands.around (h : input.Stands p q t) :
    input.Stands p q (.inner k t.start t.lastToken? [t]) where
  lt := h.lt
  le_size := h.le_size
  start_eq := h.start_eq
  after_eq := (Concrete.after_of_lastToken? (Concrete.lastToken?_around ..) rfl).trans h.after_eq

/-- Rules that build one tree of all tokens they read. -/
def Rule.isExact : Rule → Bool
  | .expression | .assignment | .conditional | .binary _ | .unary | .trailing | .member
  | .primary | .operand | .identifier | .selector | .propertyName | .property | .block
  | .function _ | .variables | .declarator | .initial | .forHead _ | .switchClause
  | .catchClause | .exceptionFilter | .finallyClause | .listed _ | .required _ => true
  | _ => false

theorem Rule.reads_of_isExact (h : r.isExact = true) : r.reads = true := by
  cases r <;> first | rfl | cases h

theorem Derives.stands (hover : input.Over tokens) (h : Derives input r p q e ts) (he : e = 0)
    (hp : p ≤ input.significant.size) (hr : r.isExact = true) :
    ∀ t ∈ ts, input.Stands p q t := by
  have hlt := h.lt he (Rule.reads_of_isExact hr)
  have hfits := h.fits hover
  have only {p q : Nat} {t : Concrete} (h : ∀ u ∈ [t], input.Stands p q u) :
      input.Stands p q t := List.forall_mem_singleton.mp h
  induction h with
  | functionOperand hd ih | primaryOf hd ih
  | memberOf hd ih | trailingOf hd ih | unaryOf hd ih | binaryOf hd ih | conditionalOf hd ih
  | assignmentOf hd ih | expressionOf hd ih | declared hd ih | initialOf hd ih
  | initialVariables hd ih => exact ih he hp rfl hlt hfits
  | leaf hsees _ | present hsees =>
    exact List.forall_mem_singleton.mpr hsees.stands_leafAt
  | missing | lacking | invalid => cases he
  | noItems | someItems | paren | array | object | propertyInit | getter | setter | xml | new
  | newCall | leading | yield | block | named | unnamed | declaration | steps | iterate
  | caseClause | defaultClause | filter | catchClause | finalClause =>
    exact List.forall_mem_singleton.mpr (hfits.stands hover hp hlt rfl)
  | access hd _ _ _ ih | call hd _ _ ih | operate hd _ _ _ _ _ ih | assign hd _ _ _ ih
  | commas hd _ _ ih | initialized hd _ _ ih | index hd _ _ _ ih | trailed hd _ _ _ ih =>
    have hfirst := only (ih (by omega) hp rfl (hd.lt (by omega) rfl) (hd.fits hover))
    exact List.forall_mem_singleton.mpr (hfits.stands hover hp hlt hfirst.start_eq)
  | choose hd _ _ _ _ ih =>
    have hfirst := only (ih (by omega) hp rfl (hd.lt (by omega) rfl) (hd.fits hover))
    exact List.forall_mem_singleton.mpr (hfits.stands hover hp hlt hfirst.start_eq)
  | _ => cases hr

theorem Derives.stands_tree (hover : input.Over tokens) (h : Derives input r p q e [t]) (he : e = 0)
    (hp : p ≤ input.significant.size) (hr : r.isExact = true) : input.Stands p q t :=
  h.stands hover he hp hr t List.mem_cons_self

/-- A node that a rule of any kind builds. -/
theorem Derives.stands_node (hover : input.Over tokens)
    (h : Derives input r p q e [input.nodeAt q k (input.indexAt p) ts]) (he : e = 0)
    (hp : p ≤ input.significant.size) (hr : r.reads = true) :
    input.Stands p q (input.nodeAt q k (input.indexAt p) ts) :=
  (h.fits hover).stands hover hp (h.lt he hr) rfl

theorem Input.Stands.isEmpty_eq_false (h : input.Stands p q t) (hover : input.Over tokens) :
    t.isEmpty = false := by
  by_contra hempty
  have hlast : t.lastToken? = none := by
    obtain ⟨_, _, stop, _, children⟩ := t
    simp only [Concrete.isEmpty, Bool.not_eq_false, Bool.and_eq_true, Option.isNone_iff_eq_none,
      List.isEmpty_iff] at hempty
    obtain ⟨rfl, rfl⟩ := hempty
    simp [Concrete.lastToken?, Concrete.lastTokenOf?]
  have hafter := h.after_eq
  rw [Concrete.after, hlast] at hafter
  have hlt := hover.indexAt_lt_afterAt h.le_size h.lt
  have hstart := h.start_eq
  dsimp only at hafter
  omega

/-- A statement without its semicolon is made of the tokens of rank `p` up to `m`. -/
theorem Derives.statement_stands (hover : input.Over tokens)
    (h : Derives input .statement p q e [t]) (he : e = 0) (hp : p ≤ input.significant.size) :
    ∃ m, input.Stands p m t ∧ (q = m ∨ input.Sees m .semicolon ∧ q = m + 1) := by
  have hlt := h.lt he rfl
  have hfits := h.fits hover
  cases h with
  | blockStatement hd | functionStatement hd =>
    exact ⟨q, hd.stands_tree hover he hp rfl, .inl rfl⟩
  | emptyStatement hsees =>
    rw [← Input.nodeAt_succ hsees.lt_size] at hfits ⊢
    exact ⟨p + 1, hfits.stands hover hp hlt rfl, .inl rfl⟩
  | variableStatement hd hend | expressionStatement _ hd _ hend =>
    have hd := hd.stands_tree hover (by omega) hp rfl
    cases hend with
    | semicolon hsees => exact ⟨_, hd, .inr ⟨hsees, rfl⟩⟩
    | omitted => exact ⟨_, hd, .inl rfl⟩
    | missing => cases he
  | nullStatement hd hempty =>
    have hd := hd.stands_tree hover he hp rfl
    rw [hd.isEmpty_eq_false hover] at hempty
    cases hempty
  | leaf _ htag => cases htag
  | missing htag => cases htag
  | _ => exact ⟨q, hfits.stands hover hp hlt rfl, .inl rfl⟩

/-- From place `start` up to the token of rank `m` there are only tokens of kind `k`. -/
def Input.Follows (input : Input) (k : Kind) (start m : Nat) : Prop :=
  start ≤ input.indexAt m ∧ ∀ j, j < m → start ≤ input.indexAt j → input.Sees j k

namespace Input.Over
variable (hover : input.Over tokens)
include hover

theorem follows_afterAt (h : m ≤ input.significant.size) : input.Follows k (input.afterAt m) m := by
  refine ⟨hover.afterAt_le_indexAt m, fun j hj hle => ?_⟩
  exact absurd (hover.rank_ge_of_afterAt_le h hle) (Nat.not_le_of_lt hj)

theorem follows_succ {start : Nat} (h : input.Follows k start m) (hsees : input.Sees m k) :
    input.Follows k start (m + 1) := by
  refine ⟨Nat.le_trans h.1 (hover.indexAt_mono (Nat.le_succ m)), fun j hj hle => ?_⟩
  rcases Nat.lt_or_eq_of_le (Nat.le_of_lt_succ hj) with hlt | rfl
  · exact h.2 j hlt hle
  · exact hsees

theorem follows_indexAt (hsees : input.Sees m k) :
    input.Follows k (input.indexAt m) (m + 1) := by
  refine ⟨hover.indexAt_mono (Nat.le_succ m), fun j hj hle => ?_⟩
  have := hover.rank_ge_of_indexAt_le hsees.lt_size hle
  obtain rfl : j = m := by omega
  exact hsees

end Input.Over

/-- The first significant token from place `start` on is that of rank `m`. -/
def Input.Meets (input : Input) (start m : Nat) : Prop :=
  start ≤ input.indexAt m ∧ ∀ j, j < m → input.indexAt j < start

theorem Input.Over.meets_indexAt (hover : input.Over tokens) (h : m < input.significant.size) :
    input.Meets (input.indexAt m) m :=
  ⟨Nat.le_refl _, fun _ hj => hover.indexAt_lt (Nat.lt_trans hj h) hj⟩

theorem Input.Over.meets_succ (hover : input.Over tokens) (h : m < input.significant.size) :
    input.Meets (input.indexAt m + 1) (m + 1) :=
  ⟨hover.indexAt_lt h (Nat.lt_succ_self m),
    fun _ hj => Nat.lt_succ_of_le (hover.indexAt_mono (Nat.le_of_lt_succ hj))⟩

namespace Input.Stands

theorem lt_size (h : input.Stands p q t) : p < input.significant.size :=
  Nat.lt_of_lt_of_le h.lt h.le_size

theorem meets (h : input.Stands p m t) (hover : input.Over tokens) : input.Meets t.after m := by
  rw [h.after_eq]
  exact ⟨hover.afterAt_le_indexAt m, fun _ hj => hover.indexAt_lt_afterAt h.le_size hj⟩

theorem follows (h : input.Stands p m t) (hover : input.Over tokens) :
    input.Follows k t.after m := by
  rw [h.after_eq]
  exact hover.follows_afterAt h.le_size

theorem meets_start (h : input.Stands p q t) (hover : input.Over tokens) :
    input.Meets t.start p := by
  rw [h.start_eq]
  exact hover.meets_indexAt h.lt_size

theorem meets_second (h : input.Stands p q t) (hover : input.Over tokens) :
    input.Meets (t.start + 1) (p + 1) := by
  rw [h.start_eq]
  exact hover.meets_succ h.lt_size

theorem lt_after {j : Nat} (h : input.Stands p q t) (hover : input.Over tokens) (hj : j < q) :
    input.indexAt j < t.after := by
  rw [h.after_eq]
  exact hover.indexAt_lt_afterAt h.le_size hj

theorem lt_start {j : Nat} (h : input.Stands p q t) (hover : input.Over tokens) (hj : j < p) :
    input.indexAt j < t.start := by
  rw [h.start_eq]
  exact hover.indexAt_lt (Nat.lt_trans hj h.lt_size) hj

end Input.Stands

/-- What may stand after the last tree of a list. -/
def Rule.spare? : Rule → Option Kind
  | .statements => some .semicolon
  | .items | .members => some .comma
  | .separated r => if r.isExact then some .comma else none
  | _ => none

theorem Rule.spare?_of_leafTag? {tag : Kind} (h : r.leafTag? k = some tag) : r.spare? = none := by
  cases r <;> first | rfl | cases h

theorem Lowering.afterLast_cons (t : Concrete) (ts : List Concrete) (start : Nat) :
    afterLast (t :: ts) start = afterLast ts t.after := by
  cases ts with
  | nil => rfl
  | cons u us => simp [afterLast, List.getLast?_cons]

/-- After the last tree of a list there is at most one token of the list. -/
theorem Derives.follows (hover : input.Over tokens) (h : Derives input r p q e ts) (he : e = 0)
    (hp : p ≤ input.significant.size) (hr : r.spare? = some k) {start : Nat}
    (hstart : input.Follows k start p) :
    input.Follows k (Lowering.afterLast ts start) q := by
  induction h generalizing start with
  | noMoreItems | noMoreMembers | noMoreStatements => exact hstart
  | one hd =>
    have hexact : _ ∧ _ := Option.ite_none_right_eq_some.mp hr
    rw [Lowering.afterLast_cons]
    exact (hd.stands_tree hover he hp hexact.1).follows hover
  | more hd hcomma _ _ ih =>
    have hexact : _ ∧ _ := Option.ite_none_right_eq_some.mp hr
    cases hexact.2
    have hd := hd.stands_tree hover (by omega) hp hexact.1
    rw [Lowering.afterLast_cons]
    exact ih (by omega) hcomma.lt_size hr (hover.follows_succ (hd.follows hover) hcomma)
  | lastMember hd =>
    rw [Lowering.afterLast_cons]
    exact (hd.stands_tree hover he hp rfl).follows hover
  | nextMember hd hcomma _ _ ih =>
    cases hr
    have hd := hd.stands_tree hover (by omega) hp rfl
    rw [Lowering.afterLast_cons]
    exact ih (by omega) hcomma.lt_size rfl (hover.follows_succ (hd.follows hover) hcomma)
  | lastItem hd =>
    rw [Lowering.afterLast_cons]
    exact (hd.stands_tree hover he hp rfl).around.follows hover
  | item hd hcomma _ _ ih =>
    cases hr
    have hd := (hd.stands_tree hover (by omega) hp rfl).around (k := .item)
    rw [Lowering.afterLast_cons]
    exact ih (by omega) hcomma.lt_size rfl (hover.follows_succ (hd.follows hover) hcomma)
  | hole hcomma _ ih =>
    cases hr
    rw [Lowering.afterLast_cons, Concrete.after, Concrete.lastToken?_absent]
    exact ih he hcomma.lt_size rfl (hover.follows_indexAt hcomma)
  | nextStatement hd _ _ _ ih =>
    cases hr
    obtain ⟨m, hm, hend⟩ := hd.statement_stands hover (by omega) hp
    rw [Lowering.afterLast_cons]
    rcases hend with rfl | ⟨hsees, rfl⟩
    · exact ih (by omega) hm.le_size rfl (hm.follows hover)
    · exact ih (by omega) hsees.lt_size rfl (hover.follows_succ (hm.follows hover) hsees)
  | skipped hd => exact absurd (hd.lt (by omega) rfl) (Nat.lt_irrefl _)
  | leaf _ htag =>
    rw [Rule.spare?_of_leafTag? htag] at hr
    cases hr
  | missing => cases he
  | _ => cases hr

/-- Nothing is read for a list without trees. -/
theorem Derives.eq_of_nil (h : Derives input r p q e []) (he : e = 0)
    (hr : r.spare? = some .comma) : q = p := by
  cases h with
  | noMoreItems | noMoreMembers => rfl
  | xmlBroken | lacking | strayTokens => cases he
  | _ => cases hr

theorem Derives.separated_ne_nil (h : Derives input (.separated r) p q e ts) : ts ≠ [] := by
  cases h <;> exact List.cons_ne_nil _ _

theorem Lowering.firstStart_gt (hfits : input.Fits (m + 1) q ts) (hsees : input.Sees m k)
    {otherwise : Nat} (h : input.indexAt m < otherwise) :
    input.indexAt m < firstStart ts otherwise := by
  cases ts with
  | nil => exact h
  | cons u us => exact hfits.start_gt hsees List.mem_cons_self

/-- Trees of a list of clauses or of parts of XML stand in order. -/
theorem Input.Stands.start_lt (h : input.Stands p m t) (hfits : input.Fits m q ts)
    (hover : input.Over tokens) : ∀ u ∈ ts, t.start < u.start := by
  intro u hu
  have hge := ((hfits h.le_size).2.2 u hu).start_ge
  have hlt := hover.indexAt_lt_afterAt h.le_size h.lt
  rw [h.start_eq]
  omega

/-- Lists that are put into the order of the source. -/
def Rule.isSorted : Rule → Bool
  | .xmlParts | .clauses => true
  | _ => false

/-- Without a report they are in that order already. -/
theorem Derives.sorted_eq (hover : input.Over tokens) (h : Derives input r p q e ts) (he : e = 0)
    (hp : p ≤ input.significant.size) (hr : r.isSorted = true) : Lowering.sorted ts = ts := by
  have hpairwise : ts.Pairwise (·.start < ·.start) := by
    induction h with
    | noMoreClauses | xmlBroken => exact .nil
    | nextClause hd hts _ ih =>
      have hd := hd.stands_tree hover (by omega) hp rfl
      exact .cons (hd.start_lt (hts.fits hover) hover) (ih (by omega) hd.le_size rfl)
    | xmlText hsees hts ih =>
      exact .cons (hsees.stands_leafAt.start_lt (hts.fits hover) hover) (ih he hsees.lt_size rfl)
    | xmlEmbedded hopen hd hclose hts _ ih =>
      have hd := hd.stands_tree hover (by omega) hopen.lt_size rfl
      have hclose' := (hclose.fits.seq (hts.fits hover) hover)
      exact .cons (hd.start_lt hclose' hover) (ih (by omega) (hclose.forward.2 hd.le_size) rfl)
    | leaf | missing | xmlLast => exact List.pairwise_singleton _ _
    | strayTokens => cases he
    | _ => cases hr
  refine List.mergeSort_of_pairwise (hpairwise.imp fun hlt => ?_)
  rw [Lowering.inOrder, decide_eq_true hlt, Bool.true_or]

/-- Clauses end where the last of them ends. -/
theorem Derives.clauses_max_after (hover : input.Over tokens) (h : Derives input .clauses p q e ts)
    (he : e = 0) (hp : p ≤ input.significant.size) :
    (ts.map (·.after)).max?.getD (input.afterAt p) = input.afterAt q := by
  generalize hr : Rule.clauses = r at h
  induction h with
  | noMoreClauses => rfl
  | nextClause hd hts _ ih =>
    have hd := hd.stands_tree hover (by omega) hp rfl
    have ih := ih (by omega) hd.le_size rfl
    have hmono := hover.afterAt_mono ((hts.fits hover hd.le_size).2.1) hts.forward.1
    rw [List.map_cons, List.max?_cons, hd.after_eq]
    generalize (List.map Concrete.after _).max? = last at ih ⊢
    cases last with
    | none => exact ih
    | some last => exact (congrArg _ ih).trans (Nat.max_eq_right hmono)
  | strayTokens => cases he
  | leaf _ htag =>
    subst hr
    cases htag
  | missing => cases he
  | _ => cases hr

end ScriptTree
