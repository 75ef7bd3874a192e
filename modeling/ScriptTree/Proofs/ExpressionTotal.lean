import ScriptTree.Lowering.Script
import ScriptTree.Proofs.TokenSearch
import ScriptTree.Proofs.TreeBounds

/-!
Lowering the trees of expressions. Whatever the grammar builds can be lowered: the shape of every
node is the one its rule expects, and the tokens that have to be there are found. What may stop it
is only the limit on depth, and that only where nodes stand deeper.
-/
namespace ScriptTree

/-- A result, or the limit on depth where it is less than `room`. -/
def Lowered.Total {α : Type} (limit room : Nat) : Lowered α → Prop
  | .ok _ => True
  | .error e => e = .tooDeep limit ∧ limit < room

@[simp] theorem Ancestry.enter_depth (a : Ancestry) (parent : NodeKind) :
    (a.enter parent).depth = a.depth + 1 := rfl

namespace Lowered
variable {α β : Type} {limit room : Nat}

theorem total_ok (a : α) : Total limit room (.ok a) := trivial

theorem Total.bind {x : Lowered α} {f : α → Lowered β} (hx : Total limit room x)
    (hf : ∀ a, Total limit room (f a)) : Total limit room (x >>= f) := by
  cases x with
  | ok a => exact hf a
  | error e => exact hx

/-- A step whose result is known. -/
theorem Total.next {x : Lowered α} {f : α → Lowered β} {a : α} (hx : x = .ok a)
    (hf : Total limit room (f a)) : Total limit room (x >>= f) := by
  subst hx
  exact hf

theorem total_mapM {f : α → Lowered β} {xs : List α} (h : ∀ x ∈ xs, Total limit room (f x)) :
    Total limit room (xs.mapM f) := by
  induction xs with
  | nil => exact total_ok []
  | cons x xs ih =>
    rw [List.mapM_cons]
    refine (h x List.mem_cons_self).bind fun y => ?_
    refine (ih fun z hz => h z (List.mem_cons_of_mem x hz)).bind fun ys => ?_
    exact total_ok (y :: ys)

theorem total_option_mapM {f : α → Lowered β} {x : Option α}
    (h : ∀ a, x = some a → Total limit room (f a)) : Total limit room (x.mapM f) := by
  cases x with
  | none => exact total_ok none
  | some a => exact (h a rfl).bind fun b => total_ok (some b)

end Lowered

open Lowered

section
variable (tokens : Array Token) (limit room : Nat)

/-- Tree `t` is lowered as an expression, given enough steps and room for its depth. -/
def ExpressionTotal (t : Concrete) : Prop :=
  ∀ n a, 2 * t.height ≤ n + 1 → a.depth + 2 * t.height ≤ room →
    Total limit room ((Builder.within (.ofTokens tokens) limit n).expression t a)

/-- Tree `t` is lowered as a statement, which may consist of an expression in the same tree. -/
def StatementTotal (t : Concrete) : Prop :=
  ∀ n a bound, 2 * t.height ≤ n → a.depth + 2 * t.height + 1 ≤ room →
    Total limit room ((Builder.within (.ofTokens tokens) limit n).statement t a bound)

/-- Tree `t` is lowered by a rule that goes on to smaller trees at once. -/
def RuleTotal (rule : Builder → Concrete → Ancestry → Lowered Node) (t : Concrete) : Prop :=
  ∀ n a, 2 * t.height ≤ n + 2 → a.depth + 2 * t.height ≤ room →
    Total limit room (rule (Builder.within (.ofTokens tokens) limit n) t a)

end

section
variable {tokens : Array Token} {limit room : Nat} {t u : Concrete} {n : Nat} {a a' : Ancestry}

theorem ExpressionTotal.below (h : ExpressionTotal tokens limit room t)
    (hlt : t.height < u.height) (hn : 2 * u.height ≤ n + 2)
    (ha : a.depth + 2 * u.height ≤ room) (hdepth : a'.depth ≤ a.depth + 2) :
    Total limit room ((Builder.within (.ofTokens tokens) limit n).expression t a') :=
  h n a' (by omega) (by omega)

theorem StatementTotal.below {bound : Nat} (h : StatementTotal tokens limit room t)
    (hlt : t.height < u.height) (hn : 2 * u.height ≤ n + 2)
    (ha : a.depth + 2 * u.height ≤ room) (hdepth : a'.depth ≤ a.depth + 1) :
    Total limit room ((Builder.within (.ofTokens tokens) limit n).statement t a' bound) :=
  h n a' bound (by omega) (by omega)

theorem RuleTotal.below {rule : Builder → Concrete → Ancestry → Lowered Node}
    (h : RuleTotal tokens limit room rule t)
    (hlt : t.height < u.height) (hn : 2 * u.height ≤ n + 2)
    (ha : a.depth + 2 * u.height ≤ room) (hdepth : a'.depth ≤ a.depth + 2) :
    Total limit room (rule (Builder.within (.ofTokens tokens) limit n) t a') :=
  h n a' (by omega) (by omega)

theorem total_guard (ha : a.depth ≤ room) : Total limit room (Lowering.guard limit a) := by
  unfold Lowering.guard
  split
  · exact ⟨rfl, by omega⟩
  · exact total_ok ()

/-- An expression is lowered by the rule that its tag calls. -/
theorem expressionTotal_of_rule (rule : Builder → Concrete → Ancestry → Lowered Node)
    (htag : ∀ b a, Lowering.expression (.ofTokens tokens) limit b t a =
      (do Lowering.guard limit a; rule b t a))
    (h : RuleTotal tokens limit room rule t) : ExpressionTotal tokens limit room t := by
  intro n a hn ha
  have hpos := t.height_pos
  obtain ⟨n, rfl⟩ : ∃ m, n = m + 1 := ⟨n - 1, by omega⟩
  change Total limit room (Lowering.expression (.ofTokens tokens) limit _ t a)
  rw [htag]
  exact (total_guard (by omega)).bind fun _ => h n a (by omega) ha

end

namespace Concrete

/-- Children of a node are less high than it is. -/
theorem height_lt_nodeAt {input : Input} {q start : Nat} {kind : Kind} {t : Concrete}
    {children : List Concrete} (h : t ∈ children) :
    t.height < (input.nodeAt q kind start children).height :=
  height_lt_of_mem_children h

end Concrete

section
variable {input : Input} {tokens : Array Token} {limit room q s n : Nat} {kind : Kind}
  {parent : NodeKind} {t : Concrete} {ts : List Concrete} {a : Ancestry}

theorem ExpressionTotal.inside (h : ExpressionTotal tokens limit room t) (ht : t ∈ ts)
    (hn : 2 * (input.nodeAt q kind s ts).height ≤ n + 2)
    (ha : a.depth + 2 * (input.nodeAt q kind s ts).height ≤ room) :
    Total limit room
      ((Builder.within (.ofTokens tokens) limit n).expression t (a.enter parent)) :=
  h.below (Concrete.height_lt_nodeAt ht) hn ha (by simp)

theorem StatementTotal.inside {bound : Nat} (h : StatementTotal tokens limit room t)
    (ht : t ∈ ts) (hn : 2 * (input.nodeAt q kind s ts).height ≤ n + 2)
    (ha : a.depth + 2 * (input.nodeAt q kind s ts).height ≤ room) :
    Total limit room
      ((Builder.within (.ofTokens tokens) limit n).statement t (a.enter parent) bound) :=
  h.below (Concrete.height_lt_nodeAt ht) hn ha (by simp)

theorem RuleTotal.inside {rule : Builder → Concrete → Ancestry → Lowered Node}
    (h : RuleTotal tokens limit room rule t) (ht : t ∈ ts)
    (hn : 2 * (input.nodeAt q kind s ts).height ≤ n + 2)
    (ha : a.depth + 2 * (input.nodeAt q kind s ts).height ≤ room) :
    Total limit room (rule (Builder.within (.ofTokens tokens) limit n) t (a.enter parent)) :=
  h.below (Concrete.height_lt_nodeAt ht) hn ha (by simp)

end

section
variable {input : Input} {tokens : Array Token} (hover : input.Over tokens) {limit room : Nat}
  {k : Kind} {m p q s start bound : Nat} {t u v : Concrete} {ts : List Concrete}
include hover

theorem total_position (hsees : input.Sees m k) (hstart : start ≤ input.indexAt m)
    (hbound : input.indexAt m < bound) :
    Total limit room (Lowering.position (.ofTokens tokens) k start bound) := by
  obtain ⟨j, _, hj⟩ := Lowering.exists_index? hover hsees hstart hbound
  rw [Lowering.position, Lowering.position?, hj]
  exact total_ok _

theorem total_position_between (h : input.Between k t u) :
    Total limit room (Lowering.position (.ofTokens tokens) k t.after u.start) := by
  obtain ⟨m, hsees, hstart, hbound⟩ := h
  exact total_position hover hsees hstart hbound

theorem total_keyword (hsees : input.Sees m k) :
    Total limit room (Lowering.keyword (.ofTokens tokens) k (input.indexAt m)) := by
  rw [Lowering.keyword_of_sees hover hsees]
  exact total_ok _

theorem total_commas (h : ts.IsChain (input.Between .comma)) :
    Total limit room (Lowering.commas (.ofTokens tokens) ts) := by
  induction h with
  | nil => exact total_ok []
  | singleton t => exact total_ok []
  | cons_cons hcomma _ ih =>
    rw [Lowering.commas]
    exact (total_position_between hover hcomma).bind fun _ => ih.bind fun _ => total_ok _

/-- An operator between `start` and `bound`, by its tag or by the token it is written as. -/
theorem total_operatorPosition {tag : Kind} (hsees : input.Sees m k)
    (htag : tag = k ∨ tag.operatorToken? = some k) (hstart : start ≤ input.indexAt m)
    (hbound : input.indexAt m < bound) :
    Total limit room (Lowering.operatorPosition (.ofTokens tokens) tag start bound) := by
  obtain ⟨j, _, hj⟩ := Lowering.exists_index? hover hsees hstart hbound
  have hlt : start < bound := Nat.lt_of_le_of_lt hstart hbound
  rw [Lowering.index?, if_pos hlt] at hj
  have hfound :
      ∃ i, TokenTable.findOperator? (.ofTokens tokens) tag start (bound - 1) = some i := by
    rw [TokenTable.findOperator?]
    rcases htag with rfl | htag
    · rw [hj]
      exact ⟨_, rfl⟩
    · rw [htag, Option.bind_some, hj]
      cases TokenTable.find? (.ofTokens tokens) tag start (bound - 1) with
      | none => exact ⟨_, rfl⟩
      | some i => exact ⟨i, rfl⟩
  obtain ⟨i, hi⟩ := hfound
  rw [Lowering.operatorPosition, if_pos hlt, hi]
  exact total_ok _

/-! Lists and functions. -/

/-- A list in parentheses is lowered when its items are. -/
theorem total_listed {item : Concrete → Lowered Node} (hcommas : ts.IsChain (input.Between .comma))
    (hitems : ∀ x ∈ ts, Total limit room (item x)) :
    Total limit room
      (Lowering.listed (.ofTokens tokens) (input.nodeAt q .arguments s ts) item) := by
  unfold Lowering.listed
  refine (total_mapM hitems).bind fun _ => ?_
  exact (total_commas hover hcommas).bind fun _ => total_ok _

omit hover in
theorem total_identifier {a : Ancestry} (h : t.kind = .identifier) :
    Total limit room (Lowering.identifier (.ofTokens tokens) t a) := by
  rw [Lowering.identifier, if_pos h]
  exact total_ok _

omit hover in
theorem total_block (h : ∀ x ∈ ts, StatementTotal tokens limit room x) :
    RuleTotal tokens limit room (Lowering.block (.ofTokens tokens))
      (input.nodeAt q .block s ts) := by
  intro n a hn ha
  unfold Lowering.block
  refine (total_mapM fun x hx => ?_).bind fun _ => total_ok _
  exact (h x hx).inside hx hn ha

theorem total_unnamedFunction (hsees : input.Sees p .functionKeyword)
    (hcommas : ts.IsChain (input.Between .comma)) (hts : ∀ x ∈ ts, x.kind = .identifier)
    (hbody : RuleTotal tokens limit room (Lowering.block (.ofTokens tokens)) t) :
    RuleTotal tokens limit room (Lowering.function (.ofTokens tokens))
      (input.nodeAt q .functionKeyword (input.indexAt p)
        [input.nodeAt m .arguments s ts, t]) := by
  intro n a hn ha
  unfold Lowering.function
  refine (total_keyword hover hsees).bind fun _ => ?_
  refine Total.next rfl (Total.next rfl ?_)
  refine (total_listed hover hcommas fun x hx => total_identifier (hts x hx)).bind fun _ => ?_
  exact (hbody.inside (by simp) hn ha).bind fun _ => total_ok _

theorem total_namedFunction {j : Nat} (hsees : input.Sees p .functionKeyword)
    (hcommas : ts.IsChain (input.Between .comma)) (hts : ∀ x ∈ ts, x.kind = .identifier)
    (hbody : RuleTotal tokens limit room (Lowering.block (.ofTokens tokens)) t) :
    RuleTotal tokens limit room (Lowering.function (.ofTokens tokens))
      (input.nodeAt q .functionKeyword (input.indexAt p)
        [input.leafAt j .identifier, input.nodeAt m .arguments s ts, t]) := by
  intro n a hn ha
  unfold Lowering.function
  refine (total_keyword hover hsees).bind fun _ => ?_
  refine Total.next rfl (Total.next rfl ?_)
  refine (total_listed hover hcommas fun x hx => total_identifier (hts x hx)).bind fun _ => ?_
  exact (hbody.inside (by simp) hn ha).bind fun _ => total_ok _

omit hover in
theorem total_declarator_name (h : t.kind = .identifier) :
    RuleTotal tokens limit room (Lowering.declarator (.ofTokens tokens)) t := by
  intro n a hn ha
  unfold Lowering.declarator
  rw [h]
  exact (total_identifier h).bind fun _ => total_ok _

omit hover in
theorem total_declarator (ht : t.kind = .identifier) (hu : ExpressionTotal tokens limit room u) :
    RuleTotal tokens limit room (Lowering.declarator (.ofTokens tokens))
      (input.nodeAt q .equals s [t, u]) := by
  intro n a hn ha
  unfold Lowering.declarator
  refine Total.next rfl (Total.next rfl ?_)
  refine (total_identifier ht).bind fun _ => ?_
  exact (hu.inside (by simp) hn ha).bind fun _ => total_ok _

/-! Expressions, by the forms of their rules. -/

/-- What the lowering makes of an operand that is a single token. -/
theorem total_atom (hsees : input.Sees p k) (hatom : Rule.isAtom k = true) :
    ExpressionTotal tokens limit room (input.leafAt p k) := by
  have hok {node : Node} (htag : ∀ b a,
      Lowering.expression (.ofTokens tokens) limit b (input.leafAt p k) a =
        (do Lowering.guard limit a; .ok node)) :
      ExpressionTotal tokens limit room (input.leafAt p k) :=
    expressionTotal_of_rule (fun _ _ _ => .ok node) htag fun _ _ _ _ => total_ok _
  cases k with
  | thisKeyword =>
    refine expressionTotal_of_rule (fun _ t _ => Lowering.thisExpression (.ofTokens tokens) t)
      (fun _ _ => rfl) fun n a hn ha => ?_
    exact (total_keyword hover hsees).bind fun _ => total_ok _
  | nullKeyword | trueKeyword | falseKeyword | stringLiteral | regularExpressionLiteral
  | decimalLiteral | hexIntegerLiteral | octalIntegerLiteral | xmlAttribute =>
    exact hok fun _ _ => rfl
  | _ => cases hatom

omit hover in
theorem total_name (t : Concrete) (h : t.kind = .identifier) :
    ExpressionTotal tokens limit room t := by
  refine expressionTotal_of_rule (fun _ t a => Lowering.identifier (.ofTokens tokens) t a)
    (fun b a => ?_) fun n a _ _ => total_identifier h
  rw [Lowering.expression, h]

theorem total_leaf {r : Rule} {tag : Kind} (hsees : input.Sees p k)
    (htag : r.leafTag? k = some tag) :
    ExpressionTotal tokens limit room (input.leafAt p tag) := by
  obtain rfl | ⟨rfl, rfl | hatom⟩ := leafTag?_cases htag
  · exact total_name _ rfl
  · exact expressionTotal_of_rule
      (fun _ t _ => .ok (.asterisk (Lowering.leafRange (.ofTokens tokens) t)))
      (fun _ _ => rfl) fun _ _ _ _ => total_ok _
  · exact total_atom hover hsees hatom

omit hover in
theorem missingTag?_cases {r : Rule} {tag : Kind} (h : r.missingTag? = some tag) :
    tag = .identifier ∨ tag = .expr := by
  cases r <;> cases h <;> simp

omit hover in
theorem total_missing {r : Rule} {tag : Kind} (htag : r.missingTag? = some tag) :
    ExpressionTotal tokens limit room (input.missingAt p tag) := by
  obtain rfl | rfl := missingTag?_cases htag
  · exact total_name _ rfl
  · exact expressionTotal_of_rule (Lowering.wrapped (.ofTokens tokens)) (fun _ _ => rfl)
      fun _ _ _ _ => total_ok _

theorem total_paren (hsees : input.Sees p .openParen) (hu : ExpressionTotal tokens limit room u) :
    ExpressionTotal tokens limit room (input.nodeAt q .paren (input.indexAt p) [u]) := by
  refine expressionTotal_of_rule (Lowering.parenthesized (.ofTokens tokens)) (fun _ _ => rfl) ?_
  intro n a hn ha
  unfold Lowering.parenthesized
  refine Total.next rfl ?_
  refine (total_position hover hsees (Nat.le_refl _) (Nat.lt_succ_self _)).bind fun _ => ?_
  exact (hu.inside (by simp) hn ha).bind fun _ => total_ok _

omit hover in
theorem expression_operator {b : Builder} {a : Ancestry} (hk : k.isBinaryOperator = true) :
    Lowering.expression (.ofTokens tokens) limit b (input.nodeAt q k s [t, u]) a =
      (do Lowering.guard limit a
          Lowering.binary (.ofTokens tokens) b (input.nodeAt q k s [t, u]) a) := by
  cases k <;> first | rfl | exact absurd hk (by decide)

theorem total_binary (hk : k.isBinaryOperator = true) (hoperator : input.Between k t u)
    (ht : ExpressionTotal tokens limit room t) (hu : ExpressionTotal tokens limit room u) :
    ExpressionTotal tokens limit room (input.nodeAt q k s [t, u]) := by
  refine expressionTotal_of_rule (Lowering.binary (.ofTokens tokens))
    (fun _ _ => expression_operator hk) ?_
  intro n a hn ha
  unfold Lowering.binary
  refine Total.next rfl (Total.next rfl ?_)
  obtain ⟨m, hsees, hstart, hbound⟩ := hoperator
  refine (total_operatorPosition hover hsees (.inl rfl) hstart hbound).bind fun _ => ?_
  refine (ht.inside (by simp) hn ha).bind fun _ => ?_
  exact (hu.inside (by simp) hn ha).bind fun _ => total_ok _

/-- An operator that is a keyword, before its operand. -/
theorem total_keywordOperation (hsees : input.Sees p k)
    (hu : ExpressionTotal tokens limit room u) :
    RuleTotal tokens limit room (Lowering.keywordOperation (.ofTokens tokens))
      (input.nodeAt q k (input.indexAt p) [u]) := by
  intro n a hn ha
  unfold Lowering.keywordOperation
  refine (total_keyword hover hsees).bind fun _ => ?_
  exact (hu.inside (by simp) hn ha).bind fun _ => total_ok _

/-- An operator that is no keyword, before its operand. -/
theorem total_unary {tag : Kind} (hsees : input.Sees p k)
    (htag : tag = k ∨ tag.operatorToken? = some k) (hafter : input.indexAt p < u.start)
    (hu : ExpressionTotal tokens limit room u) :
    RuleTotal tokens limit room (fun b t a => Lowering.unary (.ofTokens tokens) b t a false)
      (input.nodeAt q tag (input.indexAt p) [u]) := by
  intro n a hn ha
  unfold Lowering.unary
  refine Total.next rfl ?_
  refine (total_operatorPosition hover hsees htag (Nat.le_refl _) hafter).bind fun _ => ?_
  exact (hu.inside (by simp) hn ha).bind fun _ => total_ok _

theorem total_leading {tag : Kind} (hsees : input.Sees p k)
    (htag : Production.leadingOperator? k = some tag) (hafter : input.indexAt p < u.start)
    (hu : ExpressionTotal tokens limit room u) :
    ExpressionTotal tokens limit room (input.nodeAt q tag (input.indexAt p) [u]) := by
  have hword := total_keywordOperation hover hsees hu (q := q)
  have hsign (h : tag = k ∨ tag.operatorToken? = some k) :=
    total_unary hover hsees h hafter hu (q := q)
  unfold Production.leadingOperator? at htag
  split at htag <;> cases htag
  case h_1 | h_2 => exact expressionTotal_of_rule _ (fun _ _ => rfl) (hsign (.inr rfl))
  case h_3 | h_4 | h_5 => exact expressionTotal_of_rule _ (fun _ _ => rfl) hword
  all_goals exact expressionTotal_of_rule _ (fun _ _ => rfl) (hsign (.inl rfl))

theorem total_trailing {tag : Kind} (hsees : input.Sees m k)
    (htag : Production.trailingOperator? k = some tag) (hstart : t.start ≤ input.indexAt m)
    (hafter : t.after ≤ input.indexAt m) (ht : ExpressionTotal tokens limit room t) :
    ExpressionTotal tokens limit room (input.nodeAt (m + 1) tag t.start [t]) := by
  have hrule (h : tag.operatorToken? = some k) :
      RuleTotal tokens limit room (fun b t a => Lowering.unary (.ofTokens tokens) b t a true)
        (input.nodeAt (m + 1) tag t.start [t]) := by
    intro n a hn ha
    unfold Lowering.unary
    refine Total.next rfl ?_
    refine (total_operatorPosition hover hsees (.inr h) hafter
      (hover.indexAt_lt_after_nodeAt hsees.lt_size (Nat.lt_succ_self m) hstart)).bind fun _ => ?_
    exact (ht.inside (by simp) hn ha).bind fun _ => total_ok _
  unfold Production.trailingOperator? at htag
  split at htag <;> cases htag
  all_goals exact expressionTotal_of_rule _ (fun _ _ => rfl) (hrule rfl)

/-- A `yield` may stand without an operand. -/
theorem total_yield (hsees : input.Sees p .yieldKeyword) (hone : ts.length ≤ 1)
    (hts : ∀ x ∈ ts, ExpressionTotal tokens limit room x) :
    ExpressionTotal tokens limit room (input.nodeAt q .yieldKeyword (input.indexAt p) ts) := by
  refine expressionTotal_of_rule (Lowering.keywordOperation (.ofTokens tokens))
    (fun _ _ => rfl) ?_
  match ts, hone, hts with
  | [], _, _ =>
    intro n a hn ha
    unfold Lowering.keywordOperation
    exact (total_keyword hover hsees).bind fun _ => total_ok _
  | [u], _, hts => exact total_keywordOperation hover hsees (hts u List.mem_cons_self)

theorem total_new (hsees : input.Sees p .newKeyword) (hu : ExpressionTotal tokens limit room u) :
    ExpressionTotal tokens limit room (input.nodeAt q .newKeyword (input.indexAt p) [u]) := by
  refine expressionTotal_of_rule (Lowering.newExpression (.ofTokens tokens)) (fun _ _ => rfl) ?_
  intro n a hn ha
  unfold Lowering.newExpression
  refine (total_keyword hover hsees).bind fun _ => Total.next rfl ?_
  exact (hu.inside (by simp) hn ha).bind fun _ => total_ok _

theorem total_call (ht : ExpressionTotal tokens limit room t)
    (hcommas : ts.IsChain (input.Between .comma))
    (hts : ∀ x ∈ ts, ExpressionTotal tokens limit room x) :
    ExpressionTotal tokens limit room
      (input.nodeAt q .call start [t, input.nodeAt m .arguments s ts]) := by
  refine expressionTotal_of_rule (Lowering.call (.ofTokens tokens)) (fun _ _ => rfl) ?_
  intro n a hn ha
  unfold Lowering.call
  refine Total.next rfl (Total.next rfl ?_)
  refine (ht.inside (by simp) hn ha).bind fun _ => ?_
  refine (total_listed hover hcommas fun x hx => ?_).bind fun _ => total_ok _
  have hargument : x.height < (input.nodeAt m .arguments s ts).height :=
    Concrete.height_lt_nodeAt hx
  refine (hts x hx).below (Nat.lt_trans hargument ?_) hn ha (by simp)
  exact Concrete.height_lt_nodeAt (by simp)

theorem total_access {tag : Kind} (htag : Rule.accessTag? k = some tag)
    (hmark : input.Between k t u) (ht : ExpressionTotal tokens limit room t)
    (hu : ExpressionTotal tokens limit room u) :
    ExpressionTotal tokens limit room (input.nodeAt q tag s [t, u]) := by
  have hrule {kind : NodeKind} {build : Range → Node → Nat → Node → Node} :
      RuleTotal tokens limit room
        (fun b t a => Lowering.selector (.ofTokens tokens) b t a kind k build)
        (input.nodeAt q tag s [t, u]) := by
    intro n a hn ha
    unfold Lowering.selector
    refine Total.next rfl (Total.next rfl ?_)
    refine (total_position_between hover hmark).bind fun _ => ?_
    refine (ht.inside (by simp) hn ha).bind fun _ => ?_
    exact (hu.inside (by simp) hn ha).bind fun _ => total_ok _
  unfold Rule.accessTag? at htag
  split at htag <;> cases htag
  all_goals exact expressionTotal_of_rule _ (fun _ _ => rfl) hrule

omit hover in
theorem total_index (ht : ExpressionTotal tokens limit room t)
    (hu : ExpressionTotal tokens limit room u) :
    ExpressionTotal tokens limit room (input.nodeAt q .byIndex s [t, u]) := by
  refine expressionTotal_of_rule (Lowering.arrayItem (.ofTokens tokens)) (fun _ _ => rfl) ?_
  intro n a hn ha
  unfold Lowering.arrayItem
  refine Total.next rfl (Total.next rfl ?_)
  refine (ht.inside (by simp) hn ha).bind fun _ => ?_
  exact (hu.inside (by simp) hn ha).bind fun _ => total_ok _

theorem total_conditional (hquestion : input.Between .question t u)
    (ht : ExpressionTotal tokens limit room t) (hu : ExpressionTotal tokens limit room u)
    (hv : ExpressionTotal tokens limit room v) :
    ExpressionTotal tokens limit room (input.nodeAt q .question s [t, u, v]) := by
  refine expressionTotal_of_rule (Lowering.conditional (.ofTokens tokens)) (fun _ _ => rfl) ?_
  intro n a hn ha
  unfold Lowering.conditional
  refine Total.next rfl (Total.next rfl (Total.next rfl ?_))
  refine (ht.inside (by simp) hn ha).bind fun _ => ?_
  refine (total_position_between hover hquestion).bind fun _ => ?_
  refine (hu.inside (by simp) hn ha).bind fun _ => ?_
  exact (hv.inside (by simp) hn ha).bind fun _ => total_ok _

theorem total_comma (hcommas : ts.IsChain (input.Between .comma))
    (hts : ∀ x ∈ ts, ExpressionTotal tokens limit room x) :
    ExpressionTotal tokens limit room (input.nodeAt q .commaExpr s ts) := by
  refine expressionTotal_of_rule (Lowering.comma (.ofTokens tokens)) (fun _ _ => rfl) ?_
  intro n a hn ha
  unfold Lowering.comma
  refine (total_mapM fun x hx => ?_).bind fun _ => ?_
  · exact (hts x hx).inside hx hn ha
  · exact (total_commas hover hcommas).bind fun _ => total_ok _

omit hover in
/-- A clause of a loop head. -/
theorem total_clause (hu : ExpressionTotal tokens limit room u) :
    ExpressionTotal tokens limit room (Production.clause u) := by
  refine expressionTotal_of_rule (Lowering.wrapped (.ofTokens tokens)) (fun _ _ => rfl) ?_
  intro n a hn ha
  exact hu.below (Concrete.height_lt_of_mem_children (by simp [Production.clause, Concrete.inner]))
    hn ha (by simp)

omit hover in
/-- A clause of a loop head that is left out. -/
theorem total_noClause : ExpressionTotal tokens limit room (.absent .expr s) :=
  expressionTotal_of_rule (Lowering.wrapped (.ofTokens tokens)) (fun _ _ => rfl)
    fun _ _ _ _ => total_ok _

omit hover in
theorem total_item (hu : ExpressionTotal tokens limit room u) :
    RuleTotal tokens limit room (Lowering.item (.ofTokens tokens)) (arrayItem u) := by
  intro n a hn ha
  exact hu.below (Concrete.height_lt_of_mem_children (by simp [arrayItem, Concrete.inner]))
    hn ha (by simp)

omit hover in
theorem total_hole : RuleTotal tokens limit room (Lowering.item (.ofTokens tokens))
    (.absent .item s) :=
  fun _ _ _ _ => total_ok _

theorem total_array (hsees : input.Sees p .openBracket)
    (hcommas : ts.IsChain (input.Between .comma))
    (hts : ∀ x ∈ ts, RuleTotal tokens limit room (Lowering.item (.ofTokens tokens)) x) :
    ExpressionTotal tokens limit room
      (input.nodeAt q .arrayLiteral (input.indexAt p) ts) := by
  refine expressionTotal_of_rule (Lowering.array (.ofTokens tokens)) (fun _ _ => rfl) ?_
  intro n a hn ha
  unfold Lowering.array
  refine (total_position hover hsees (Nat.le_refl _) (Nat.lt_succ_self _)).bind fun _ => ?_
  refine (total_mapM fun x hx => ?_).bind fun _ => ?_
  · exact (hts x hx).inside hx hn ha
  · exact (total_commas hover hcommas).bind fun _ => total_ok _

omit hover in
theorem total_propertyInit (ht : ExpressionTotal tokens limit room t)
    (hu : ExpressionTotal tokens limit room u) :
    RuleTotal tokens limit room (Lowering.objectMember (.ofTokens tokens))
      (input.nodeAt q .propertyInit s [t, u]) := by
  intro n a hn ha
  change Total limit room (Lowering.propertyInitializer _ _ _ _)
  unfold Lowering.propertyInitializer
  refine Total.next rfl (Total.next rfl ?_)
  refine (ht.inside (by simp) hn ha).bind fun _ => ?_
  exact (hu.inside (by simp) hn ha).bind fun _ => total_ok _

theorem total_getter (hsees : input.Sees p .getKeyword)
    (ht : ExpressionTotal tokens limit room t)
    (hu : RuleTotal tokens limit room (Lowering.block (.ofTokens tokens)) u) :
    RuleTotal tokens limit room (Lowering.objectMember (.ofTokens tokens))
      (input.nodeAt q .getKeyword (input.indexAt p) [t, u]) := by
  intro n a hn ha
  change Total limit room (Lowering.getMethod _ _ _ _)
  unfold Lowering.getMethod
  refine Total.next rfl (Total.next rfl ?_)
  refine (total_keyword hover hsees).bind fun _ => ?_
  refine (ht.inside (by simp) hn ha).bind fun _ => ?_
  exact (hu.inside (by simp) hn ha).bind fun _ => total_ok _

theorem total_setter (hsees : input.Sees p .setKeyword)
    (ht : ExpressionTotal tokens limit room t) (hu : u.kind = .identifier)
    (hv : RuleTotal tokens limit room (Lowering.block (.ofTokens tokens)) v) :
    RuleTotal tokens limit room (Lowering.objectMember (.ofTokens tokens))
      (input.nodeAt q .setKeyword (input.indexAt p) [t, u, v]) := by
  intro n a hn ha
  change Total limit room (Lowering.setMethod _ _ _ _)
  unfold Lowering.setMethod
  refine Total.next rfl (Total.next rfl (Total.next rfl ?_))
  refine (total_keyword hover hsees).bind fun _ => ?_
  refine (ht.inside (by simp) hn ha).bind fun _ => ?_
  refine (total_identifier hu).bind fun _ => ?_
  exact (hv.inside (by simp) hn ha).bind fun _ => total_ok _

theorem total_object (hsees : input.Sees p .openBrace)
    (hcommas : ts.IsChain (input.Between .comma))
    (hts : ∀ x ∈ ts, RuleTotal tokens limit room (Lowering.objectMember (.ofTokens tokens)) x) :
    ExpressionTotal tokens limit room
      (input.nodeAt q .objectLiteral (input.indexAt p) ts) := by
  refine expressionTotal_of_rule (Lowering.object (.ofTokens tokens)) (fun _ _ => rfl) ?_
  intro n a hn ha
  obtain ⟨j, _, hj⟩ : ∃ j, _ ∧ Lowering.index? (.ofTokens tokens) .openBrace
      (input.nodeAt q .objectLiteral (input.indexAt p) ts).start
      ((input.nodeAt q .objectLiteral (input.indexAt p) ts).start + 1) = some (input.indexAt j) :=
    Lowering.exists_index? hover hsees (Nat.le_refl _) (Nat.lt_succ_self _)
  unfold Lowering.object
  rw [hj]
  refine Total.next rfl ?_
  refine (total_mapM fun x hx => ?_).bind fun _ => ?_
  · exact (hts x hx).inside hx hn ha
  · exact (total_commas hover hcommas).bind fun _ => total_ok _

/-- Parts of XML literals are text or expressions. -/
def XmlPartTotal (tokens : Array Token) (limit room : Nat) (t : Concrete) : Prop :=
  (t.kind = .xmlFragment ∨ t.kind = .xmlFragmentEnd) ∨ ExpressionTotal tokens limit room t

omit hover in
theorem total_xml (hts : ∀ x ∈ ts, XmlPartTotal tokens limit room x) :
    ExpressionTotal tokens limit room (input.nodeAt q .xmlLiteral s ts) := by
  refine expressionTotal_of_rule (Lowering.xmlLiteral (.ofTokens tokens)) (fun _ _ => rfl) ?_
  intro n a hn ha
  unfold Lowering.xmlLiteral
  refine (total_mapM fun x hx => ?_).bind fun _ => total_ok _
  have hx : x ∈ ts := List.mem_mergeSort.mp hx
  unfold Lowering.xmlPart
  rcases hts x hx with htext | hx'
  · rw [if_pos htext]
    exact total_ok _
  · split
    · exact total_ok _
    · exact (hx'.below (Concrete.height_lt_nodeAt hx) hn ha (by simp)).bind fun _ => total_ok _

theorem total_variables (hsees : input.Sees p .varKeyword)
    (hcommas : ts.IsChain (input.Between .comma))
    (hts : ∀ x ∈ ts, RuleTotal tokens limit room (Lowering.declarator (.ofTokens tokens)) x) :
    ExpressionTotal tokens limit room (input.nodeAt q .varKeyword (input.indexAt p) ts) := by
  refine expressionTotal_of_rule (Lowering.variableDeclaration (.ofTokens tokens))
    (fun _ _ => rfl) ?_
  intro n a hn ha
  unfold Lowering.variableDeclaration
  refine (total_keyword hover hsees).bind fun _ => ?_
  refine (total_mapM fun x hx => ?_).bind fun _ => ?_
  · exact (hts x hx).inside hx hn ha
  · exact (total_commas hover hcommas).bind fun _ => total_ok _

end

end ScriptTree
