import ScriptTree.Proofs.ExpressionTotal
import ScriptTree.Proofs.WindowSearch

/-!
What expressions are lowered to. If nothing was reported, the node that is made of the tree of an
expression is written with the tokens of the tree: each of them is a word or a sign of the node or
of a node inside it.
-/
namespace ScriptTree

/-- If there is a result, it has property `P`. -/
def Lowered.Gives {α : Type} (P : α → Prop) (x : Lowered α) : Prop := ∀ a, x = .ok a → P a

namespace Lowered
variable {α β : Type} {P : α → Prop} {Q : β → Prop}

theorem gives_ok {a : α} (h : P a) : Gives P (.ok a) := by
  rintro _ ⟨⟩
  exact h

theorem gives_error {e : LoweringError} : Gives P (.error e) := by
  rintro _ ⟨⟩

theorem Gives.bind {x : Lowered α} {f : α → Lowered β} (hx : Gives P x)
    (hf : ∀ a, P a → Gives Q (f a)) : Gives Q (x >>= f) := by
  cases x with
  | ok a => exact hf a (hx a rfl)
  | error e => exact gives_error

/-- A step whose result is known. -/
theorem Gives.next {x : Lowered α} {f : α → Lowered β} {a : α} (hx : x = .ok a)
    (hf : Gives Q (f a)) : Gives Q (x >>= f) := by
  subst hx
  exact hf

theorem Gives.then {x : Lowered α} {y : Lowered β} (hy : Gives Q y) :
    Gives Q (do let _ ← x; y) := by
  cases x with
  | ok a => exact hy
  | error e => exact gives_error

theorem gives_mapM_some {γ : Type} {f : γ → Lowered α} {c : γ} (h : Gives P (f c)) :
    Gives (fun x => ∃ a, x = some a ∧ P a) ((some c).mapM f) :=
  h.bind fun a ha => gives_ok ⟨a, rfl, ha⟩

end Lowered

open Lowered

section
variable (input : Input) (tokens : Array Token)

/-- Tree `t` of the tokens of rank `p` up to `q` is lowered by `rule` to a node that is written with
them. -/
structure WritesRule (rule : Builder → Concrete → Ancestry → Lowered Node) (p q : Nat)
    (t : Concrete) : Prop where
  stands : input.Stands p q t
  gives : ∀ limit n a,
    Gives (Written input tokens p q) (rule (Builder.within (.ofTokens tokens) limit n) t a)

/-- Tree `t` is lowered as an expression. -/
def WritesExpression (p q : Nat) (t : Concrete) : Prop :=
  WritesRule input tokens Builder.expression p q t

/-- Node `n` is written with the tokens of rank `p` up to `m`, or it is empty and `p` is `m`. A
token comes after it. -/
structure Precedes (leeway : Leeway) (p m : Nat) (n : Node) : Prop where
  spells : ∀ {s : Nat} {parts : List Part}, m < s → SpellsWith input tokens leeway m s parts →
    SpellsWith input tokens leeway p s (.node n :: parts)
  lt_stop : ∀ j, j < m → input.startAt tokens j < n.range.stop
  stop_le : n.range.stop ≤ input.startAt tokens m

end

section
variable {input : Input} {tokens : Array Token} (cuts : input.Cuts tokens) {limit : Nat}
  {k tag : Kind} {m p q s : Nat} {t u v : Concrete} {ts : List Concrete} {n : Node}
  {rule : Builder → Concrete → Ancestry → Lowered Node}

/-- An expression is lowered by the rule that its tag calls. -/
theorem writesExpression_of_rule (rule : Builder → Concrete → Ancestry → Lowered Node)
    (htag : ∀ limit b a, Lowering.expression (.ofTokens tokens) limit b t a =
      (do Lowering.guard limit a; rule b t a))
    (h : WritesRule input tokens rule p q t) : WritesExpression input tokens p q t := by
  refine ⟨h.stands, fun limit n a => ?_⟩
  cases n with
  | zero => exact gives_error
  | succ n =>
    change Gives _ (Lowering.expression (.ofTokens tokens) limit _ t a)
    rw [htag]
    exact (h.gives limit n a).then

include cuts

theorem Written.precedes (h : Written input tokens p m n) (leeway : Leeway) :
    Precedes input tokens leeway p m n where
  spells _ hparts := h.spells hparts
  lt_stop j hj := by
    rw [h.spans.stop_eq]
    exact cuts.startAt_lt_stopAt h.spans.le_size hj
  stop_le := by
    rw [h.spans.stop_eq]
    exact cuts.stopAt_le_startAt m

omit cuts in
theorem Precedes.spells_sign {leeway : Leeway} {parts : List Part}
    (h : Precedes input tokens leeway p m n) (hsees : input.Sees m k)
    (hparts : SpellsWith input tokens leeway (m + 1) s parts) :
    SpellsWith input tokens leeway p s (.node n :: .sign (input.startAt tokens m) :: parts) :=
  h.spells hparts.le (.sign hsees hparts)

theorem precedes_hole (hsees : input.Sees p k) :
    Precedes input tokens .clauses p p (.emptyAt (input.startAt tokens p)) where
  spells hlt hparts := .hole hlt hparts
  lt_stop _ hj := cuts.startAt_lt (Nat.lt_trans hj hsees.lt_size) hj
  stop_le := Nat.le_refl _

/-! Single tokens. -/

theorem written_keyword (hsees : input.Sees p k) :
    Written input tokens p (p + 1) (.keyword ⟨input.rangeAt tokens p, k⟩) :=
  written_word cuts hsees rfl rfl rfl

theorem written_identifier (hsees : input.Sees p k) : Written input tokens p (p + 1)
    (.identifier (input.rangeAt tokens p) (input.textAt p)) :=
  written_word cuts hsees rfl (cuts.textAt_isEmpty hsees.lt_size) rfl

theorem writes_identifier (hsees : input.Sees p k) : WritesRule input tokens
    (fun _ => Lowering.identifier (.ofTokens tokens)) p (p + 1) (input.leafAt p .identifier) :=
  ⟨hsees.stands_leafAt, fun _ _ _ => gives_ok (written_identifier cuts hsees)⟩

/-- An operand that is a single token. -/
theorem writes_atom (hsees : input.Sees p k) (hatom : Rule.isAtom k = true) :
    WritesExpression input tokens p (p + 1) (input.leafAt p k) := by
  have hword {node : Node} (hnode : node.isWord = true) (hname : node.isNameless = false)
      (hrange : node.range = input.rangeAt tokens p) (htag : ∀ limit b a,
        Lowering.expression (.ofTokens tokens) limit b (input.leafAt p k) a =
          (do Lowering.guard limit a; .ok node)) :
      WritesExpression input tokens p (p + 1) (input.leafAt p k) := by
    refine writesExpression_of_rule (fun _ _ _ => .ok node) htag ⟨hsees.stands_leafAt, ?_⟩
    exact fun _ _ _ => gives_ok (written_word cuts hsees hnode hname hrange)
  cases k with
  | thisKeyword =>
    refine writesExpression_of_rule (fun _ t _ => Lowering.thisExpression (.ofTokens tokens) t)
      (fun _ _ _ => rfl) ⟨hsees.stands_leafAt, fun limit n a => ?_⟩
    refine Gives.next (Lowering.keyword_of_sees cuts.toOver hsees) (gives_ok ?_)
    exact written_inner rfl rfl rfl trivial (cuts.spans_rangeAt hsees.lt_size)
      ((written_keyword cuts hsees).spells .nil)
  | nullKeyword | trueKeyword | falseKeyword | stringLiteral | regularExpressionLiteral
  | decimalLiteral | hexIntegerLiteral | octalIntegerLiteral | xmlAttribute =>
    exact hword rfl rfl rfl fun _ _ _ => rfl
  | _ => cases hatom

theorem writes_leaf {r : Rule} (hsees : input.Sees p k) (htag : r.leafTag? k = some tag) :
    WritesExpression input tokens p (p + 1) (input.leafAt p tag) := by
  obtain rfl | ⟨rfl, rfl | hatom⟩ := leafTag?_cases htag
  · exact writesExpression_of_rule _ (fun _ _ _ => rfl) (writes_identifier cuts hsees)
  · refine writesExpression_of_rule
      (fun _ t _ => .ok (.asterisk (Lowering.leafRange (.ofTokens tokens) t)))
      (fun _ _ _ => rfl) ⟨hsees.stands_leafAt, fun _ _ _ => gives_ok ?_⟩
    exact written_word cuts hsees rfl rfl rfl
  · exact writes_atom cuts hsees hatom

/-! Operators. -/

theorem writes_paren (whole : input.Stands p (m + 1)
      (input.nodeAt (m + 1) .paren (input.indexAt p) [t]))
    (hopen : input.Sees p .openParen) (ht : WritesExpression input tokens (p + 1) m t)
    (hclose : input.Sees m .closeParen) :
    WritesExpression input tokens p (m + 1)
      (input.nodeAt (m + 1) .paren (input.indexAt p) [t]) := by
  refine writesExpression_of_rule (Lowering.parenthesized (.ofTokens tokens)) (fun _ _ _ => rfl)
    ⟨whole, fun limit n a => ?_⟩
  have hover := cuts.toOver
  unfold Lowering.parenthesized
  refine Gives.next rfl (Gives.next (Lowering.position_first hover whole hopen) ?_)
  refine (ht.gives _ _ _).bind fun inside hinside => gives_ok ?_
  rw [Lowering.position?_after hover ht.stands hclose (whole.lt_after hover (Nat.lt_succ_self m))]
  exact written_inner rfl rfl rfl trivial (Lowering.spans_rangeOf cuts whole)
    (.sign hopen (hinside.spells (.sign hclose .nil)))

/-- A binary node covers what its operands cover. -/
theorem spans_between {a b : Node} (ha : Written input tokens p m a)
    (hb : Written input tokens s q b) (hms : m ≤ s) :
    input.Spans tokens p q (.between a.range.start b.range.stop) where
  lt := by
    have := ha.spans.lt
    have := hb.spans.lt
    omega
  le_size := hb.spans.le_size
  start_eq := ha.spans.start_eq
  stop_eq := by
    rw [Range.between, ha.spans.start_eq, hb.spans.stop_eq]
    have := ha.spans.lt
    have := hb.spans.lt
    exact Nat.max_eq_left (Nat.le_of_lt (cuts.startAt_lt_stopAt hb.spans.le_size (by omega)))

theorem writes_binary (whole : input.Stands p q (input.nodeAt q k s [t, u]))
    (hk : k.isBinaryOperator = true) (ht : WritesExpression input tokens p m t)
    (hsees : input.Sees m k) (hu : WritesExpression input tokens (m + 1) q u) :
    WritesExpression input tokens p q (input.nodeAt q k s [t, u]) := by
  refine writesExpression_of_rule (Lowering.binary (.ofTokens tokens))
    (fun _ _ _ => expression_operator hk) ⟨whole, fun limit n a => ?_⟩
  have hover := cuts.toOver
  unfold Lowering.binary
  refine Gives.next rfl (Gives.next rfl ?_)
  refine Gives.next (Lowering.operatorPosition_of_meets hover (ht.stands.meets hover) hsees
    (.inl rfl) (hu.stands.lt_start hover (Nat.lt_succ_self m)) (Nat.le_of_eq hu.stands.start_eq)) ?_
  refine (ht.gives _ _ _).bind fun left hleft => ?_
  refine (hu.gives _ _ _).bind fun right hright => gives_ok ?_
  exact written_inner rfl rfl rfl trivial (spans_between cuts hleft hright (Nat.le_succ m))
    (hleft.spells (.sign hsees (hright.spells .nil)))

/-- An operator that is a keyword, before its operand. -/
theorem writes_keywordOperation
    (whole : input.Stands p q (input.nodeAt q k (input.indexAt p) [u])) (hsees : input.Sees p k)
    (hu : WritesExpression input tokens (p + 1) q u)
    (hline : k = .yieldKeyword → input.brokenAt (p + 1) = false) :
    WritesRule input tokens (Lowering.keywordOperation (.ofTokens tokens)) p q
      (input.nodeAt q k (input.indexAt p) [u]) := by
  refine ⟨whole, fun limit n a => ?_⟩
  unfold Lowering.keywordOperation
  refine Gives.next (Lowering.keyword_of_sees cuts.toOver hsees) ?_
  refine (hu.gives _ _ _).bind fun operand hoperand => gives_ok ?_
  exact written_inner rfl rfl rfl (fun hk _ => hline hk) (Lowering.spans_rangeOf cuts whole)
    ((written_keyword cuts hsees).spells (hoperand.spells .nil))

/-- An operator that is no keyword, before its operand. -/
theorem writes_unary (whole : input.Stands p q (input.nodeAt q tag (input.indexAt p) [u]))
    (hsees : input.Sees p k)
    (htag : tag = k ∨ tag.operatorToken? = some k ∧ tag.isHidden = false ∧ tag ≠ k)
    (hleading : Node.isTrailingOperator tag = false)
    (hu : WritesExpression input tokens (p + 1) q u) :
    WritesRule input tokens (fun b t a => Lowering.unary (.ofTokens tokens) b t a false) p q
      (input.nodeAt q tag (input.indexAt p) [u]) := by
  refine ⟨whole, fun limit n a => ?_⟩
  have hover := cuts.toOver
  unfold Lowering.unary
  refine Gives.next rfl (Gives.next (Lowering.operatorPosition_of_meets hover
    (whole.meets_start hover) hsees htag (hu.stands.lt_start hover (Nat.lt_succ_self p))
    (Nat.le_of_eq hu.stands.start_eq)) ?_)
  refine (hu.gives _ _ _).bind fun operand hoperand => gives_ok ?_
  refine written_inner rfl rfl rfl (fun htrailing => ?_) (Lowering.spans_rangeOf cuts whole) ?_
  · exact absurd (hleading.symm.trans htrailing) Bool.false_ne_true
  · rw [Node.parts]
    simp only [Input.nodeAt, Concrete.inner, hleading, Bool.false_eq_true, if_false]
    exact .sign hsees (hoperand.spells .nil)

theorem writes_leading (whole : input.Stands p q (input.nodeAt q tag (input.indexAt p) [u]))
    (hsees : input.Sees p k) (htag : Production.leadingOperator? k = some tag)
    (hu : WritesExpression input tokens (p + 1) q u) :
    WritesExpression input tokens p q (input.nodeAt q tag (input.indexAt p) [u]) := by
  have hsign := writes_unary cuts whole hsees
  unfold Production.leadingOperator? at htag
  split at htag <;> cases htag
  case h_1 | h_2 =>
    exact writesExpression_of_rule _ (fun _ _ _ => rfl)
      (hsign (.inr ⟨rfl, rfl, by decide⟩) rfl hu)
  case h_3 | h_4 | h_5 =>
    exact writesExpression_of_rule _ (fun _ _ _ => rfl)
      (writes_keywordOperation cuts whole hsees hu nofun)
  all_goals
    exact writesExpression_of_rule _ (fun _ _ _ => rfl) (hsign (.inl rfl) rfl hu)

theorem writes_trailing (whole : input.Stands p (m + 1) (input.nodeAt (m + 1) tag s [t]))
    (ht : WritesExpression input tokens p m t) (hsees : input.Sees m k)
    (htag : Production.trailingOperator? k = some tag) (hline : input.brokenAt m = false) :
    WritesExpression input tokens p (m + 1) (input.nodeAt (m + 1) tag s [t]) := by
  have hover := cuts.toOver
  have hrule (hoperator : tag.operatorToken? = some k ∧ tag.isHidden = false ∧ tag ≠ k)
      (htrailing : Node.isTrailingOperator tag = true) :
      WritesRule input tokens (fun b t a => Lowering.unary (.ofTokens tokens) b t a true) p (m + 1)
        (input.nodeAt (m + 1) tag s [t]) := by
    refine ⟨whole, fun limit n a => ?_⟩
    unfold Lowering.unary
    refine Gives.next rfl (Gives.next (Lowering.operatorPosition_of_meets hover
      (ht.stands.meets hover) hsees (.inr hoperator) (whole.lt_after hover (Nat.lt_succ_self m))
      (whole.after_eq ▸ hover.afterAt_le_indexAt (m + 1))) ?_)
    refine (ht.gives _ _ _).bind fun operand hoperand => gives_ok ?_
    refine written_inner rfl rfl rfl (fun _ => hline) (Lowering.spans_rangeOf cuts whole) ?_
    rw [Node.parts]
    simp only [Input.nodeAt, Concrete.inner, htrailing, if_true]
    exact hoperand.spells (.sign hsees .nil)
  unfold Production.trailingOperator? at htag
  split at htag <;> cases htag
  all_goals
    exact writesExpression_of_rule _ (fun _ _ _ => rfl) (hrule ⟨rfl, rfl, by decide⟩ rfl)

/-- A `yield` without an operand. -/
theorem writes_bareYield
    (whole : input.Stands p (p + 1) (input.nodeAt (p + 1) .yieldKeyword (input.indexAt p) []))
    (hsees : input.Sees p .yieldKeyword) :
    WritesExpression input tokens p (p + 1)
      (input.nodeAt (p + 1) .yieldKeyword (input.indexAt p) []) := by
  refine writesExpression_of_rule (Lowering.keywordOperation (.ofTokens tokens))
    (fun _ _ _ => rfl) ⟨whole, fun limit n a => ?_⟩
  unfold Lowering.keywordOperation
  refine Gives.next (Lowering.keyword_of_sees cuts.toOver hsees) (gives_ok ?_)
  refine written_inner rfl rfl rfl (fun _ hne => absurd rfl (hne _))
    (Lowering.spans_rangeOf cuts whole) ?_
  have hstop : (input.rangeAt tokens p).stop = input.stopAt tokens (p + 1) :=
    (cuts.stopAt_succ hsees.lt_size).symm
  change SpellsWith input tokens .operand p (p + 1)
    [_, .node (.emptyAt (input.rangeAt tokens p).stop)]
  rw [hstop]
  exact .bare hsees rfl .nil

theorem writes_yield (whole : input.Stands p q
      (input.nodeAt q .yieldKeyword (input.indexAt p) [u]))
    (hsees : input.Sees p .yieldKeyword) (hu : WritesExpression input tokens (p + 1) q u)
    (hline : input.brokenAt (p + 1) = false) :
    WritesExpression input tokens p q (input.nodeAt q .yieldKeyword (input.indexAt p) [u]) :=
  writesExpression_of_rule _ (fun _ _ _ => rfl)
    (writes_keywordOperation cuts whole hsees hu fun _ => hline)

theorem writes_conditional {r : Nat}
    (whole : input.Stands p q (input.nodeAt q .question s [t, u, v]))
    (ht : WritesExpression input tokens p m t) (hquestion : input.Sees m .question)
    (hu : WritesExpression input tokens (m + 1) r u) (hcolon : input.Sees r .colon)
    (hv : WritesExpression input tokens (r + 1) q v) :
    WritesExpression input tokens p q (input.nodeAt q .question s [t, u, v]) := by
  refine writesExpression_of_rule (Lowering.conditional (.ofTokens tokens)) (fun _ _ _ => rfl)
    ⟨whole, fun limit n a => ?_⟩
  have hover := cuts.toOver
  unfold Lowering.conditional
  refine Gives.next rfl (Gives.next rfl (Gives.next rfl ?_))
  refine (ht.gives _ _ _).bind fun condition hcondition => ?_
  refine Gives.next (Lowering.position_after hover ht.stands hquestion
    (hu.stands.lt_start hover (Nat.lt_succ_self m))) ?_
  refine (hu.gives _ _ _).bind fun trueValue htrue => ?_
  refine (hv.gives _ _ _).bind fun falseValue hfalse => gives_ok ?_
  rw [Lowering.position?_after hover hu.stands hcolon
    (hv.stands.lt_start hover (Nat.lt_succ_self r))]
  exact written_inner rfl rfl rfl trivial (Lowering.spans_rangeOf cuts whole)
    (hcondition.spells (.sign hquestion (htrue.spells (.sign hcolon (hfalse.spells .nil)))))

/-! Member accesses. -/

theorem writes_access (whole : input.Stands p q (input.nodeAt q tag s [t, u]))
    (htag : Rule.accessTag? k = some tag) (ht : WritesExpression input tokens p m t)
    (hsees : input.Sees m k) (hu : WritesExpression input tokens (m + 1) q u) :
    WritesExpression input tokens p q (input.nodeAt q tag s [t, u]) := by
  have hover := cuts.toOver
  have hrule {kind : NodeKind} {build : Range → Node → Nat → Node → Node}
      (hbuild : ∀ r a pos b, (build r a pos b).isWord = false ∧ (build r a pos b).isScript = false ∧
        (build r a pos b).isComplete = true ∧ input.Lays p q (build r a pos b) ∧
        (build r a pos b).range = r ∧ (build r a pos b).parts = [.node a, .sign pos, .node b]) :
      WritesRule input tokens
        (fun b t a => Lowering.selector (.ofTokens tokens) b t a kind k build) p q
        (input.nodeAt q tag s [t, u]) := by
    refine ⟨whole, fun limit n a => ?_⟩
    unfold Lowering.selector
    refine Gives.next rfl (Gives.next rfl ?_)
    refine Gives.next (Lowering.position_after hover ht.stands hsees
      (hu.stands.lt_start hover (Nat.lt_succ_self m))) ?_
    refine (ht.gives _ _ _).bind fun object hobject => ?_
    refine (hu.gives _ _ _).bind fun name hname => gives_ok ?_
    obtain ⟨hword, hscript, hcomplete, hlays, hrange, hparts⟩ := hbuild
      (Lowering.rangeOf (.ofTokens tokens) (input.nodeAt q tag s [t, u])) object
      (input.startAt tokens m) name
    refine written_inner hword hscript hcomplete hlays ?_ ?_
    · rw [hrange]
      exact Lowering.spans_rangeOf cuts whole
    · rw [hparts]
      exact hobject.spells (.sign hsees (hname.spells .nil))
  unfold Rule.accessTag? at htag
  split at htag <;> cases htag
  all_goals
    exact writesExpression_of_rule _ (fun _ _ _ => rfl)
      (hrule fun _ _ _ _ => ⟨rfl, rfl, rfl, by trivial, rfl, rfl⟩)

theorem writes_index {r : Nat} (whole : input.Stands p (r + 1)
      (input.nodeAt (r + 1) .byIndex s [t, u]))
    (ht : WritesExpression input tokens p m t) (hopen : input.Sees m .openBracket)
    (hu : WritesExpression input tokens (m + 1) r u) (hclose : input.Sees r .closeBracket) :
    WritesExpression input tokens p (r + 1) (input.nodeAt (r + 1) .byIndex s [t, u]) := by
  refine writesExpression_of_rule (Lowering.arrayItem (.ofTokens tokens)) (fun _ _ _ => rfl)
    ⟨whole, fun limit n a => ?_⟩
  have hover := cuts.toOver
  unfold Lowering.arrayItem
  refine Gives.next rfl (Gives.next rfl ?_)
  refine (ht.gives _ _ _).bind fun array harray => ?_
  refine (hu.gives _ _ _).bind fun index hindex => gives_ok ?_
  rw [Lowering.position?_after hover ht.stands hopen
      (hu.stands.lt_start hover (Nat.lt_succ_self m)),
    Lowering.position?_after hover hu.stands hclose (whole.lt_after hover (Nat.lt_succ_self r))]
  exact written_inner rfl rfl rfl trivial (Lowering.spans_rangeOf cuts whole)
    (harray.spells (.sign hopen (hindex.spells (.sign hclose .nil))))

theorem writes_new (whole : input.Stands p q (input.nodeAt q .newKeyword (input.indexAt p) [u]))
    (hsees : input.Sees p .newKeyword) (hu : WritesExpression input tokens (p + 1) q u) :
    WritesExpression input tokens p q (input.nodeAt q .newKeyword (input.indexAt p) [u]) := by
  refine writesExpression_of_rule (Lowering.newExpression (.ofTokens tokens)) (fun _ _ _ => rfl)
    ⟨whole, fun limit n a => ?_⟩
  unfold Lowering.newExpression
  refine Gives.next (Lowering.keyword_of_sees cuts.toOver hsees) (Gives.next rfl ?_)
  refine (hu.gives _ _ _).bind fun operand hoperand => gives_ok ?_
  exact written_inner rfl rfl rfl trivial (Lowering.spans_rangeOf cuts whole)
    ((written_keyword cuts hsees).spells (hoperand.spells .nil))

/-! Lists with commas. -/

omit cuts in
theorem commas_cons (hover : input.Over tokens) {commas : List Nat} {us : List Concrete}
    (hmeets : input.Meets t.after m) (hcomma : input.Sees m .comma)
    (hfits : input.Fits (m + 1) q (u :: us))
    (h : Lowering.commas (.ofTokens tokens) (u :: us) = .ok commas) :
    Lowering.commas (.ofTokens tokens) (t :: u :: us) =
      .ok (input.startAt tokens m :: commas) := by
  rw [Lowering.commas, Lowering.position_of_meets hover hmeets hcomma
    (hfits.start_gt hcomma List.mem_cons_self), h]
  rfl

end

section
variable (input : Input) (tokens : Array Token)

/-- Trees with commas between them are lowered to nodes that are written with the tokens of rank
`p` up to `q`, if each tree of a kind `P` is lowered to such a node. -/
def WritesRow (P : Nat → Nat → Concrete → Prop) (p q : Nat) (ts : List Concrete) : Prop :=
  ∃ commas, Lowering.commas (.ofTokens tokens) ts = .ok commas ∧
    ∀ f : Concrete → Lowered Node,
      (∀ p q t, P p q t → Gives (Written input tokens p q) (f t)) →
      Gives (fun nodes => Spells input tokens p q (Part.woven nodes commas)) (ts.mapM f)

/-- The same of trees after the last of which a comma may stand, before a closing mark. -/
def WritesSpareRow (leeway : Leeway) (rule : Builder → Concrete → Ancestry → Lowered Node)
    (p q : Nat) (ts : List Concrete) : Prop :=
  ∃ commas, Lowering.commas (.ofTokens tokens) ts = .ok commas ∧
    ∀ limit n a, Gives
      (fun nodes => nodes.length = ts.length ∧ SpellsWith input tokens leeway p q
        (Part.woven nodes commas ++ Part.spareComma nodes (some (input.startAt tokens q))))
      (ts.mapM (rule (Builder.within (.ofTokens tokens) limit n) · a))

end

section
variable {input : Input} {tokens : Array Token} (cuts : input.Cuts tokens) {limit : Nat}
  {k tag : Kind} {m p q s : Nat} {t u v : Concrete} {ts us : List Concrete} {n : Node}
  {rule : Builder → Concrete → Ancestry → Lowered Node} {P : Nat → Nat → Concrete → Prop}
  {leeway : Leeway}

theorem writesRow_one (h : P p q t) : WritesRow input tokens P p q [t] := by
  refine ⟨[], rfl, fun f hf => ?_⟩
  rw [List.mapM_cons, List.mapM_nil]
  refine (hf p q t h).bind fun n hn => Gives.next rfl (gives_ok ?_)
  exact hn.spells .nil

theorem writesRow_more (hover : input.Over tokens) (ht : P p m t) (hmeets : input.Meets t.after m)
    (hcomma : input.Sees m .comma) (hfits : input.Fits (m + 1) q ts) (hts : ts ≠ [])
    (h : WritesRow input tokens P (m + 1) q ts) : WritesRow input tokens P p q (t :: ts) := by
  obtain ⟨commas, hcommas, hrest⟩ := h
  obtain ⟨u, us, rfl⟩ := List.exists_cons_of_ne_nil hts
  refine ⟨_, commas_cons hover hmeets hcomma hfits hcommas, fun f hf => ?_⟩
  rw [List.mapM_cons]
  refine (hf p m t ht).bind fun n hn => ?_
  refine (hrest f hf).bind fun nodes hnodes => gives_ok ?_
  exact hn.spells (.sign hcomma hnodes)

theorem writesSpareRow_nil : WritesSpareRow input tokens leeway rule p p [] :=
  ⟨[], rfl, fun _ _ _ => gives_ok ⟨rfl, .nil⟩⟩

include cuts

theorem writesSpareRow_last
    (ht : ∀ limit n a, Gives (Written input tokens p q)
      (rule (Builder.within (.ofTokens tokens) limit n) t a)) :
    WritesSpareRow input tokens leeway rule p q [t] := by
  refine ⟨[], rfl, fun limit n a => ?_⟩
  rw [List.mapM_cons, List.mapM_nil]
  refine (ht limit n a).bind fun node hnode => Gives.next rfl (gives_ok ⟨rfl, ?_⟩)
  refine hnode.spells (.unfilled (fun j _ hstart hlt => ?_) .nil)
  exact Nat.not_lt_of_le hstart
    ((hnode.precedes cuts leeway).lt_stop j (cuts.rank_lt_of_startAt_lt hlt))

theorem writesSpareRow_cons
    (ht : ∀ limit n a, Gives (Precedes input tokens leeway p m)
      (rule (Builder.within (.ofTokens tokens) limit n) t a))
    (hmeets : input.Meets t.after m) (hcomma : input.Sees m .comma)
    (hfits : input.Fits (m + 1) q ts) (hempty : ts = [] → q = m + 1)
    (h : WritesSpareRow input tokens leeway rule (m + 1) q ts) :
    WritesSpareRow input tokens leeway rule p q (t :: ts) := by
  obtain ⟨commas, hcommas, hrest⟩ := h
  cases ts with
  | nil =>
    obtain rfl := hempty rfl
    refine ⟨[], rfl, fun limit n a => ?_⟩
    rw [List.mapM_cons, List.mapM_nil]
    refine (ht limit n a).bind fun node hnode => Gives.next rfl (gives_ok ⟨rfl, ?_⟩)
    have hlt := cuts.startAt_lt hcomma.lt_size (Nat.lt_succ_self m)
    refine hnode.spells (Nat.lt_succ_self m) (.filled hcomma hnode.stop_le hlt ?_ .nil)
    intro j _ hstart hstop
    have hle : j < m + 1 := cuts.rank_lt_of_startAt_lt hstop
    have hge : ¬j < m := fun hj => Nat.not_lt_of_le hstart (hnode.lt_stop j hj)
    omega
  | cons u us =>
    refine ⟨_, commas_cons cuts.toOver hmeets hcomma hfits hcommas, fun limit n a => ?_⟩
    rw [List.mapM_cons]
    refine (ht limit n a).bind fun node hnode => ?_
    refine (hrest limit n a).bind fun nodes hnodes => gives_ok ⟨?_, ?_⟩
    · simp [hnodes.1]
    · obtain ⟨x, xs, rfl⟩ := List.exists_cons_of_length_eq_add_one hnodes.1
      exact hnode.spells_sign hcomma hnodes.2

theorem writes_comma (whole : input.Stands p q (input.nodeAt q .commaExpr s ts))
    (hts : WritesRow input tokens (WritesExpression input tokens) p q ts) :
    WritesExpression input tokens p q (input.nodeAt q .commaExpr s ts) := by
  refine writesExpression_of_rule (Lowering.comma (.ofTokens tokens)) (fun _ _ _ => rfl)
    ⟨whole, fun limit n a => ?_⟩
  obtain ⟨commas, hcommas, hts⟩ := hts
  unfold Lowering.comma
  refine (hts _ fun _ _ _ h => h.gives _ _ _).bind fun items hitems => ?_
  refine Gives.next hcommas (gives_ok ?_)
  exact written_inner rfl rfl rfl trivial (Lowering.spans_rangeOf cuts whole) hitems

theorem writes_variables
    (whole : input.Stands p q (input.nodeAt q .varKeyword (input.indexAt p) ts))
    (hsees : input.Sees p .varKeyword)
    (hts : WritesRow input tokens
      (WritesRule input tokens (Lowering.declarator (.ofTokens tokens))) (p + 1) q ts) :
    WritesExpression input tokens p q (input.nodeAt q .varKeyword (input.indexAt p) ts) := by
  refine writesExpression_of_rule (Lowering.variableDeclaration (.ofTokens tokens))
    (fun _ _ _ => rfl) ⟨whole, fun limit n a => ?_⟩
  obtain ⟨commas, hcommas, hts⟩ := hts
  unfold Lowering.variableDeclaration
  refine Gives.next (Lowering.keyword_of_sees cuts.toOver hsees) ?_
  refine (hts _ fun _ _ _ h => h.gives _ _ _).bind fun declarations hdeclarations => ?_
  refine Gives.next hcommas (gives_ok ?_)
  exact written_inner rfl rfl rfl trivial (Lowering.spans_rangeOf cuts whole)
    ((written_keyword cuts hsees).spells hdeclarations)

theorem writes_declarator_name (hsees : input.Sees p k) :
    WritesRule input tokens (Lowering.declarator (.ofTokens tokens)) p (p + 1)
      (input.leafAt p .identifier) := by
  refine ⟨hsees.stands_leafAt, fun limit n a => ?_⟩
  unfold Lowering.declarator
  refine (writes_identifier cuts hsees).gives limit n a |>.bind fun name hname => gives_ok ?_
  exact written_inner rfl rfl rfl trivial hname.spans (hname.spells .nil)

theorem writes_declarator (whole : input.Stands p q
      (input.nodeAt q .equals s [input.leafAt p .identifier, u]))
    (hsees : input.Sees p k) (hequals : input.Sees (p + 1) .equals)
    (hu : WritesExpression input tokens (p + 2) q u) :
    WritesRule input tokens (Lowering.declarator (.ofTokens tokens)) p q
      (input.nodeAt q .equals s [input.leafAt p .identifier, u]) := by
  refine ⟨whole, fun limit n a => ?_⟩
  have hname := writes_identifier cuts hsees
  unfold Lowering.declarator
  refine Gives.next rfl (Gives.next rfl ?_)
  refine (hname.gives limit n _).bind fun name hname' => ?_
  refine (hu.gives _ _ _).bind fun value hvalue => gives_ok ?_
  rw [Lowering.position?_after cuts.toOver hname.stands hequals
    (hu.stands.lt_start cuts.toOver (Nat.lt_succ_self _))]
  exact written_inner rfl rfl rfl trivial (Lowering.spans_rangeOf cuts whole)
    (hname'.spells (.sign hequals (hvalue.spells .nil)))

omit cuts in
/-- An item of an array. -/
theorem gives_item (hu : WritesExpression input tokens p q u) (limit n : Nat) (a : Ancestry) :
    Gives (Written input tokens p q)
      (Lowering.item (.ofTokens tokens) (Builder.within (.ofTokens tokens) limit n) (arrayItem u)
        a) :=
  hu.gives limit n a

theorem gives_hole (hsees : input.Sees p .comma) (limit n : Nat) (a : Ancestry) :
    Gives (Precedes input tokens .clauses p p)
      (Lowering.item (.ofTokens tokens) (Builder.within (.ofTokens tokens) limit n)
        (.absent .item (input.indexAt p)) a) :=
  gives_ok (precedes_hole cuts hsees)

theorem writes_array (whole : input.Stands p (m + 1) t)
    (hopen : input.Sees p .openBracket) (hclose : input.Sees m .closeBracket)
    (hfollows : input.Follows .comma (Lowering.afterLast t.children (t.start + 1)) m)
    (hts : WritesSpareRow input tokens .clauses (Lowering.item (.ofTokens tokens)) (p + 1) m
      t.children) :
    WritesRule input tokens (Lowering.array (.ofTokens tokens)) p (m + 1) t := by
  refine ⟨whole, fun limit n a => ?_⟩
  have hover := cuts.toOver
  obtain ⟨commas, hcommas, hts⟩ := hts
  unfold Lowering.array
  refine Gives.next (Lowering.position_first hover whole hopen) ?_
  refine (hts limit n _).bind fun items hitems => Gives.next hcommas (gives_ok ?_)
  rw [Lowering.position?_of_follows hover hfollows (by decide) hclose
    (whole.lt_after hover (Nat.lt_succ_self m))]
  exact written_inner rfl rfl rfl trivial (Lowering.spans_rangeOf cuts whole)
    (.sign hopen (hitems.2.append (.sign hclose .nil)))

theorem writes_object (whole : input.Stands p (m + 1) t)
    (hopen : input.Sees p .openBrace) (hclose : input.Sees m .closeBrace)
    (hfollows : input.Follows .comma (Lowering.afterLast t.children (t.start + 1)) m)
    (hts : WritesSpareRow input tokens .nothing (Lowering.objectMember (.ofTokens tokens)) (p + 1) m
      t.children) :
    WritesRule input tokens (Lowering.object (.ofTokens tokens)) p (m + 1) t := by
  refine ⟨whole, fun limit n a => ?_⟩
  have hover := cuts.toOver
  obtain ⟨commas, hcommas, hts⟩ := hts
  rw [whole.start_eq] at hfollows
  unfold Lowering.object
  rw [Lowering.index?_first hover whole hopen (by rw [whole.start_eq]; exact Nat.lt_succ_self _)]
  refine Gives.next rfl ?_
  refine (hts limit n _).bind fun members hmembers => Gives.next hcommas (gives_ok ?_)
  rw [Lowering.index?_of_follows hover hfollows (by decide) hclose
    (whole.lt_after hover (Nat.lt_succ_self m))]
  exact written_inner rfl rfl rfl trivial (Lowering.spans_rangeOf cuts whole)
    (.sign hopen (hmembers.2.append (.sign hclose .nil)))

theorem writes_propertyInit (whole : input.Stands p q
      (input.nodeAt q .propertyInit s [t, u]))
    (ht : WritesExpression input tokens p m t) (hcolon : input.Sees m .colon)
    (hu : WritesExpression input tokens (m + 1) q u) :
    WritesRule input tokens (Lowering.objectMember (.ofTokens tokens)) p q
      (input.nodeAt q .propertyInit s [t, u]) := by
  refine ⟨whole, fun limit n a => ?_⟩
  have hover := cuts.toOver
  change Gives _ (Lowering.propertyInitializer _ _ _ _)
  unfold Lowering.propertyInitializer
  refine Gives.next rfl (Gives.next rfl ?_)
  refine (ht.gives _ _ _).bind fun name hname => ?_
  refine (hu.gives _ _ _).bind fun value hvalue => gives_ok ?_
  rw [Lowering.position?_after hover ht.stands hcolon
    (hu.stands.lt_start hover (Nat.lt_succ_self m))]
  exact written_inner rfl rfl rfl trivial (Lowering.spans_rangeOf cuts whole)
    (hname.spells (.sign hcolon (hvalue.spells .nil)))

theorem writes_getter (whole : input.Stands p q
      (input.nodeAt q .getKeyword (input.indexAt p) [t, u]))
    (hsees : input.Sees p .getKeyword) (ht : WritesExpression input tokens (p + 1) m t)
    (hopen : input.Sees m .openParen) (hclose : input.Sees (m + 1) .closeParen)
    (hu : WritesRule input tokens (Lowering.block (.ofTokens tokens)) (m + 2) q u) :
    WritesRule input tokens (Lowering.objectMember (.ofTokens tokens)) p q
      (input.nodeAt q .getKeyword (input.indexAt p) [t, u]) := by
  refine ⟨whole, fun limit n a => ?_⟩
  have hover := cuts.toOver
  change Gives _ (Lowering.getMethod _ _ _ _)
  unfold Lowering.getMethod
  refine Gives.next rfl (Gives.next rfl ?_)
  refine Gives.next (Lowering.keyword_first hover whole hsees) ?_
  refine (ht.gives _ _ _).bind fun name hname => ?_
  refine (hu.gives _ _ _).bind fun body hbody => gives_ok ?_
  rw [Lowering.index?_of_meets hover (ht.stands.meets hover) hopen
      (hu.stands.lt_start hover (by omega)), Option.map_some, Option.map_some, Option.getD_some,
    Lowering.position?_of_meets hover (hover.meets_succ hopen.lt_size) hclose
      (hu.stands.lt_start hover (Nat.lt_succ_self _))]
  exact written_inner rfl rfl rfl trivial (Lowering.spans_rangeOf cuts whole)
    ((written_keyword cuts hsees).spells
      (hname.spells (.sign hopen (.sign hclose (hbody.spells .nil)))))

theorem writes_setter (whole : input.Stands p q
      (input.nodeAt q .setKeyword (input.indexAt p) [t, input.leafAt (m + 1) .identifier, v]))
    (hsees : input.Sees p .setKeyword) (ht : WritesExpression input tokens (p + 1) m t)
    (hopen : input.Sees m .openParen) (hargument : input.Sees (m + 1) k)
    (hclose : input.Sees (m + 2) .closeParen)
    (hv : WritesRule input tokens (Lowering.block (.ofTokens tokens)) (m + 3) q v) :
    WritesRule input tokens (Lowering.objectMember (.ofTokens tokens)) p q
      (input.nodeAt q .setKeyword (input.indexAt p)
        [t, input.leafAt (m + 1) .identifier, v]) := by
  refine ⟨whole, fun limit n a => ?_⟩
  have hover := cuts.toOver
  have hu := writes_identifier cuts hargument
  change Gives _ (Lowering.setMethod _ _ _ _)
  unfold Lowering.setMethod
  refine Gives.next rfl (Gives.next rfl (Gives.next rfl ?_))
  refine Gives.next (Lowering.keyword_first hover whole hsees) ?_
  refine (ht.gives _ _ _).bind fun name hname => ?_
  refine (hu.gives limit n _).bind fun argument hargument => ?_
  refine (hv.gives _ _ _).bind fun body hbody => gives_ok ?_
  rw [Lowering.position?_after hover ht.stands hopen
      (hu.stands.lt_start hover (Nat.lt_succ_self m)),
    Lowering.position?_after hover hu.stands hclose (hv.stands.lt_start hover (Nat.lt_succ_self _))]
  exact written_inner rfl rfl rfl trivial (Lowering.spans_rangeOf cuts whole)
    ((written_keyword cuts hsees).spells (hname.spells (.sign hopen
      (hargument.spells (.sign hclose (hbody.spells .nil))))))

end

/-! Lists in parentheses, blocks and functions. -/

/-- The parts of a list in parentheses. -/
def Lowering.Listed.parts (l : Lowering.Listed) : List Part :=
  Part.sign? l.openParen ++ Part.woven l.items l.commas ++ Part.sign? l.closeParen

/-- Whether both parentheses of a list are there. -/
def Lowering.Listed.isClosed (l : Lowering.Listed) : Bool :=
  l.openParen.isSome && l.closeParen.isSome

/-- Tree `t` is lowered as a list in parentheses of trees with `P`. -/
structure WritesListed (input : Input) (tokens : Array Token) (P : Nat → Nat → Concrete → Prop)
    (p q : Nat) (t : Concrete) : Prop where
  stands : input.Stands p q t
  kind_eq : t.kind = .arguments
  gives : ∀ f : Concrete → Lowered Node,
    (∀ p q t, P p q t → Gives (Written input tokens p q) (f t)) →
    Gives (fun l => l.isClosed = true ∧ Spells input tokens p q l.parts)
      (Lowering.listed (.ofTokens tokens) t f)

/-- Trees of statements are lowered to nodes that are written one after the other. -/
def WritesStatements (input : Input) (tokens : Array Token) (p q : Nat) (ts : List Concrete) :
    Prop :=
  ∀ limit n a bound, input.afterAt q ≤ bound →
    Gives (fun nodes => Spells input tokens p q (nodes.map .node))
      (ts.mapM ((Builder.within (.ofTokens tokens) limit n).statement · a bound))

section
variable {input : Input} {tokens : Array Token} (cuts : input.Cuts tokens) {limit : Nat}
  {k tag : Kind} {m p q s : Nat} {t u v : Concrete} {ts us : List Concrete} {n : Node}
  {P : Nat → Nat → Concrete → Prop}

theorem writesRow_nil : WritesRow input tokens P p p [] :=
  ⟨[], rfl, fun _ _ => gives_ok .nil⟩

include cuts

theorem writes_listed (whole : input.Stands p (m + 1) t) (hkind : t.kind = .arguments)
    (hopen : input.Sees p .openParen) (hclose : input.Sees m .closeParen)
    (hfirst : input.indexAt p < Lowering.firstStart t.children t.after)
    (hfollows : input.Follows .comma (Lowering.afterLast t.children (input.indexAt p + 1)) m)
    (hts : WritesRow input tokens P (p + 1) m t.children) :
    WritesListed input tokens P p (m + 1) t := by
  refine ⟨whole, hkind, fun f hf => ?_⟩
  have hover := cuts.toOver
  obtain ⟨commas, hcommas, hts⟩ := hts
  unfold Lowering.listed
  rw [if_neg (not_not_intro hkind)]
  refine (hts f hf).bind fun items hitems => Gives.next hcommas (gives_ok ?_)
  dsimp only [Lowering.Listed.parts, Lowering.Listed.isClosed]
  rw [Lowering.index?_first hover whole hopen hfirst, Option.map_some, Option.map_some,
    Option.getD_some, Lowering.position?_of_follows hover hfollows (by decide) hclose
      (whole.lt_after hover (Nat.lt_succ_self m))]
  exact ⟨rfl, .sign hopen (hitems.append (.sign hclose .nil))⟩

theorem writes_call (whole : input.Stands p q (input.nodeAt q .call s [t, u]))
    (ht : WritesExpression input tokens p m t)
    (hu : WritesListed input tokens (WritesExpression input tokens) m q u) :
    WritesExpression input tokens p q (input.nodeAt q .call s [t, u]) := by
  refine writesExpression_of_rule (Lowering.call (.ofTokens tokens)) (fun _ _ _ => rfl)
    ⟨whole, fun limit n a => ?_⟩
  unfold Lowering.call
  refine Gives.next rfl (Gives.next rfl ?_)
  refine (ht.gives _ _ _).bind fun callee hcallee => ?_
  refine (hu.gives _ fun _ _ _ h => h.gives _ _ _).bind fun list hlist => gives_ok ?_
  exact written_inner rfl rfl hlist.1 trivial (Lowering.spans_rangeOf cuts whole)
    (hcallee.spells hlist.2)

theorem writes_block (whole : input.Stands p (m + 1) t) (hkind : t.kind = .block)
    (hopen : input.Sees p .openBrace) (hclose : input.Sees m .closeBrace)
    (hfollows : input.Follows .semicolon (Lowering.afterLast t.children (input.indexAt p + 1)) m)
    (hts : WritesStatements input tokens (p + 1) m t.children) :
    WritesRule input tokens (Lowering.block (.ofTokens tokens)) p (m + 1) t := by
  refine ⟨whole, fun limit n a => ?_⟩
  have hover := cuts.toOver
  have hbound : input.afterAt m ≤ t.after := by
    rw [whole.after_eq]
    exact hover.afterAt_mono whole.le_size (Nat.le_succ m)
  unfold Lowering.block
  rw [if_neg (not_not_intro hkind)]
  refine (hts limit n _ _ hbound).bind fun statements hstatements => gives_ok ?_
  rw [Lowering.index?_first hover whole hopen (by rw [whole.start_eq]; exact Nat.lt_succ_self _),
    Option.map_some, Option.map_some, Option.getD_some,
    Lowering.position?_of_follows hover hfollows (by decide) hclose
      (whole.lt_after hover (Nat.lt_succ_self m))]
  exact written_inner rfl rfl rfl trivial (Lowering.spans_rangeOf cuts whole)
    (.sign hopen (hstatements.append (.sign hclose .nil)))

/-- Names in a list. -/
def IsName (input : Input) (p q : Nat) (t : Concrete) : Prop :=
  t = input.leafAt p .identifier ∧ q = p + 1 ∧ ∃ k, input.Sees p k

theorem gives_name {a : Ancestry} (h : IsName input p q t) :
    Gives (Written input tokens p q) (Lowering.identifier (.ofTokens tokens) t a) := by
  obtain ⟨rfl, rfl, k, hsees⟩ := h
  exact (writes_identifier cuts hsees).gives 0 0 a

theorem writes_unnamedFunction (whole : input.Stands p q
      (input.nodeAt q .functionKeyword (input.indexAt p) [t, u]))
    (hsees : input.Sees p .functionKeyword)
    (ht : WritesListed input tokens (IsName input) (p + 1) m t)
    (hu : WritesRule input tokens (Lowering.block (.ofTokens tokens)) m q u) :
    WritesRule input tokens (Lowering.function (.ofTokens tokens)) p q
      (input.nodeAt q .functionKeyword (input.indexAt p) [t, u]) := by
  refine ⟨whole, fun limit n a => ?_⟩
  have hname : ¬t.kind = .identifier := by
    rw [ht.kind_eq]
    decide
  unfold Lowering.function
  refine Gives.next (Lowering.keyword_first cuts.toOver whole hsees) ?_
  dsimp only [Input.nodeAt, Concrete.inner]
  rw [if_neg hname]
  refine Gives.next rfl (Gives.next rfl ?_)
  refine (ht.gives _ fun _ _ _ h => gives_name cuts h).bind fun list hlist => ?_
  refine (hu.gives _ _ _).bind fun body hbody => gives_ok ?_
  exact written_inner rfl rfl hlist.1 trivial (Lowering.spans_rangeOf cuts whole)
    ((written_keyword cuts hsees).spells (hlist.2.append (hbody.spells .nil)))

theorem writes_namedFunction (whole : input.Stands p q
      (input.nodeAt q .functionKeyword (input.indexAt p)
        [input.leafAt (p + 1) .identifier, t, u]))
    (hsees : input.Sees p .functionKeyword) (hname : input.Sees (p + 1) k)
    (ht : WritesListed input tokens (IsName input) (p + 2) m t)
    (hu : WritesRule input tokens (Lowering.block (.ofTokens tokens)) m q u) :
    WritesRule input tokens (Lowering.function (.ofTokens tokens)) p q
      (input.nodeAt q .functionKeyword (input.indexAt p)
        [input.leafAt (p + 1) .identifier, t, u]) := by
  refine ⟨whole, fun limit n a => ?_⟩
  have hidentifier := written_identifier cuts hname
  unfold Lowering.function
  refine Gives.next (Lowering.keyword_first cuts.toOver whole hsees) ?_
  refine Gives.next rfl (Gives.next rfl ?_)
  refine (ht.gives _ fun _ _ _ h => gives_name cuts h).bind fun list hlist => ?_
  refine (hu.gives _ _ _).bind fun body hbody => gives_ok ?_
  exact written_inner rfl rfl hlist.1 trivial (Lowering.spans_rangeOf cuts whole)
    ((written_keyword cuts hsees).spells (hidentifier.spells (hlist.2.append (hbody.spells .nil))))

end

/-! XML literals. -/

/-- The part of an XML literal that begins with the token of rank `p`, which is a brace if the part
is an expression. -/
def FragmentStarts (input : Input) (tokens : Array Token) (p : Nat) (g : Node) : Prop :=
  Part.isEmbedded g = false ∧ g.range.start = input.startAt tokens p ∨
    input.Sees p .openBrace ∧ g.range.start = input.startAt tokens (p + 1)

/-- Parts of an XML literal are lowered to nodes that are written, with the braces around
expressions, with the tokens of rank `p` up to `q`. What comes before them ends at `stop`. -/
def WritesFragments (input : Input) (tokens : Array Token) (p q : Nat) (ts : List Concrete) :
    Prop :=
  ∀ limit n a, Gives
    (fun nodes => ∃ g rest, nodes = g :: rest ∧ FragmentStarts input tokens p g ∧
      ∀ stop, (∀ j, j < p → input.Sees j .openBrace → input.startAt tokens j < stop) →
        stop ≤ input.startAt tokens p →
        Spells input tokens p q (Part.openingBrace stop g ++ Part.fragments nodes))
    (ts.mapM
      (Lowering.xmlPart (.ofTokens tokens) (Builder.within (.ofTokens tokens) limit n) · a))

section
variable {input : Input} {tokens : Array Token} (cuts : input.Cuts tokens)
  {k : Kind} {m p q s : Nat} {t : Concrete} {ts : List Concrete}

theorem writesFragments_last (hsees : input.Sees p .xmlFragmentEnd) :
    WritesFragments input tokens p (p + 1) [input.leafAt p .xmlFragmentEnd] := by
  intro limit n a
  refine gives_ok ⟨_, [], rfl, .inl ⟨rfl, rfl⟩, fun _ _ _ => ?_⟩
  exact .word hsees rfl rfl rfl .nil

include cuts

theorem writesFragments_text (hsees : input.Sees p .xmlFragment)
    (h : WritesFragments input tokens (p + 1) q ts) :
    WritesFragments input tokens p q (input.leafAt p .xmlFragment :: ts) := by
  intro limit n a
  have htext := written_word cuts hsees
    (n := .xmlText (input.rangeAt tokens p) (input.textAt p)) rfl rfl rfl
  rw [List.mapM_cons]
  refine Gives.next rfl ((h limit n a).bind ?_)
  rintro _ ⟨g, rest, rfl, _, hrest⟩
  refine gives_ok ⟨_, _, rfl, .inl ⟨rfl, rfl⟩, fun _ _ _ => ?_⟩
  refine htext.spells (hrest _ (fun j hj _ => ?_) (htext.precedes cuts .nothing).stop_le)
  exact (htext.precedes cuts .nothing).lt_stop j hj

/-- The brace before an expression; what comes before it ends at `stop`. -/
theorem spells_openingBrace {g : Node} {stop : Nat} {parts : List Part}
    (hembedded : Part.isEmbedded g = true) (hopen : input.Sees p .openBrace)
    (hstart : g.range.start = input.startAt tokens (p + 1))
    (hstop : ∀ j, j < p → input.Sees j .openBrace → input.startAt tokens j < stop)
    (hle : stop ≤ input.startAt tokens p) (hparts : Spells input tokens (p + 1) q parts) :
    Spells input tokens p q (Part.openingBrace stop g ++ parts) := by
  rw [Part.openingBrace, if_pos hembedded, hstart]
  refine .filled hopen hle (cuts.startAt_lt hopen.lt_size (Nat.lt_succ_self p)) ?_ hparts
  intro j hj hge hlt
  have hjp := cuts.rank_lt_of_startAt_lt hlt
  have hpj : ¬j < p := fun hlt => Nat.not_lt_of_le hge (hstop j hlt hj)
  omega

/-- The brace after an expression. If another expression comes next, its brace comes first. -/
theorem spells_closingBrace {f g : Node} {parts : List Part}
    (hembedded : Part.isEmbedded f = true) (hf : Precedes input tokens .nothing p m f)
    (hclose : input.Sees m .closeBrace) (hg : FragmentStarts input tokens (m + 1) g)
    (hparts : Spells input tokens (m + 1) q parts) :
    Spells input tokens m q (Part.closingBrace f g.range.start ++ parts) := by
  have hlt : input.startAt tokens m < g.range.start := by
    rcases hg with ⟨_, hg⟩ | ⟨_, hg⟩ <;> rw [hg]
    · exact cuts.startAt_lt hclose.lt_size (Nat.lt_succ_self m)
    · exact cuts.startAt_lt hclose.lt_size (by omega)
  rw [Part.closingBrace, if_pos hembedded]
  refine .filled hclose hf.stop_le hlt ?_ hparts
  intro j hj hge hjg
  have hmj : ¬j < m := fun hlt => Nat.not_lt_of_le hge (hf.lt_stop j hlt)
  rcases hg with ⟨_, hg⟩ | ⟨hbrace, hg⟩ <;> rw [hg] at hjg
  · have := cuts.rank_lt_of_startAt_lt hjg
    omega
  · have := cuts.rank_lt_of_startAt_lt hjg
    have hne : j ≠ m + 1 := by
      rintro rfl
      cases hj.unique hbrace
    omega

theorem writesFragments_embedded (hopen : input.Sees p .openBrace)
    (ht : WritesExpression input tokens (p + 1) m t)
    (hkind : ¬(t.kind = .xmlFragment ∨ t.kind = .xmlFragmentEnd))
    (hclose : input.Sees m .closeBrace) (h : WritesFragments input tokens (m + 1) q ts) :
    WritesFragments input tokens p q (t :: ts) := by
  intro limit n a
  rw [List.mapM_cons, Lowering.xmlPart, if_neg hkind, bind_assoc]
  refine (ht.gives _ _ _).bind fun inside hinside => ?_
  refine Gives.next rfl ((h limit n a).bind ?_)
  rintro _ ⟨g, rest, rfl, hstart, hrest⟩
  have hnode : Written input tokens (p + 1) m (.xmlExpression inside.range inside) :=
    written_inner rfl rfl rfl trivial hinside.spans (hinside.spells .nil)
  have hbefore := hnode.precedes cuts .nothing
  have hfragments : Spells input tokens (m + 1) q
      (Part.openingBrace inside.range.stop g ++ Part.fragments (g :: rest)) := by
    apply hrest
    · intro j hj hsees
      have hne : j ≠ m := by
        rintro rfl
        cases hsees.unique hclose
      exact hbefore.lt_stop j (by omega)
    · exact Nat.le_trans hbefore.stop_le (cuts.startAt_mono (Nat.le_succ m))
  refine gives_ok ⟨_, _, rfl, .inr ⟨hopen, hinside.spans.start_eq⟩, fun stop hstop hle => ?_⟩
  rw [Part.fragments, List.append_assoc]
  exact spells_openingBrace cuts rfl hopen hinside.spans.start_eq hstop hle
    (hnode.spells (spells_closingBrace cuts rfl hbefore hclose hstart hfragments))

/-- An XML literal begins with text. -/
theorem writes_xml (whole : input.Stands p q t) (hsees : ¬input.Sees p .openBrace)
    (hsorted : Lowering.sorted t.children = t.children)
    (h : WritesFragments input tokens p q t.children) :
    WritesRule input tokens (Lowering.xmlLiteral (.ofTokens tokens)) p q t := by
  refine ⟨whole, fun limit n a => ?_⟩
  unfold Lowering.xmlLiteral
  rw [hsorted]
  refine (h limit n _).bind ?_
  rintro _ ⟨g, rest, rfl, hstart, hspells⟩
  refine gives_ok (written_inner rfl rfl rfl trivial (Lowering.spans_rangeOf cuts whole) ?_)
  rcases hstart with ⟨htext, _⟩ | ⟨hopen, _⟩
  · have hall := hspells (input.startAt tokens p)
      (fun j hj _ => cuts.startAt_lt (Nat.lt_trans hj whole.lt_size) hj) (Nat.le_refl _)
    rwa [Part.openingBrace, htext, if_neg Bool.false_ne_true, List.nil_append] at hall
  · exact absurd hopen hsees

end
end ScriptTree
