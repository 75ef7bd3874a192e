import ScriptTree.Production.Program
import ScriptTree.Proofs.Settling

/-!
Productions are composed of a few basic steps: they look at the input, read a token, report at a
token, go a level deeper, or give up when an allowance is spent. What every basic step keeps is kept
by all productions, whether they give a tree or halt. An instance is what they report.
-/
namespace ScriptTree

/-- The cursor after one more report. -/
def Cursor.reported (c : Cursor) (d : Diagnostic) : Cursor :=
  { c with problems := c.problems.push d }

/-- The messages of the grammar. The limit on levels has one of its own. -/
def Message.grammatical : List Message := [.unexpected, .mismatched, .expected, .mismatchedSet]

/-- The input ends where the head of a `for each` loop would begin. -/
def Input.EndsBeforeHead (input : Input) : Prop :=
  ∃ p q e, input.Sees p .forKeyword ∧ input.Sees (p + 1) .eachKeyword ∧
    Expects input .openParen (p + 2) q e ∧ input.significant.size ≤ q

namespace Production

/-- What a message and its arguments say, where `found` shows what stands at the cursor. -/
inductive Says (found : String) : Message → List String → Prop where
  | unexpected : Says found .unexpected [found]
  | mismatched (expected : String) : Says found .mismatched [found, expected]
  | expected (expected : String) : Says found .expected [expected]
  | mismatchedSet (set : String) : Says found .mismatchedSet [found, set]
  | tooDeep (limit : String) : Says found .tooDeep [limit]

/-- A report is put at a significant token. Without a place it tells of a missing `in` where the
input ends before the head of a loop, unless there are no significant tokens. Where it shows what
was found, that is the token of its place, or the input has ended. -/
structure IsPlaced (input : Input) (place : Option Placed) (m : Message) (args : List String) :
    Prop where
  mem : ∀ x ∈ place, x ∈ input.significant
  unplaced : place = none → input.significant = #[] ∨
    m = .expected ∧ args = [Kind.inKeyword.describe] ∧ input.EndsBeforeHead
  wording : ∃ found, Says found m args ∧ (found = "<EOF>" ∨ ∃ x ∈ place, found = x.token.quoted)

/-- Begun at cursor `c`, production `p` is composed of basic steps. What follows a step need be
composed only for what the step can give. -/
inductive ComposedFrom (input : Input) : {α : Type} → Cursor → Production α → Prop where
  | look {α : Type} {p : Production α} {c : Cursor} {a : α} : Runs p input c a c →
      ComposedFrom input c p
  | bind {α β : Type} {p : Production α} {f : α → Production β} {c : Cursor} :
      ComposedFrom input c p → (∀ a c', Runs p input c a c' → ComposedFrom input c' (f a)) →
      ComposedFrom input c (p >>= f)
  | advance {c : Cursor} : ComposedFrom input c advance
  | reportAt {c : Cursor} {place : Option Placed} {m : Message} {args : List String} :
      m ∈ Message.grammatical → IsPlaced input place m args →
      ComposedFrom input c (reportAt place m args)
  | nested {α : Type} {body : Production α} {c : Cursor} :
      ComposedFrom input { c with depth := c.depth + 1 } body → ComposedFrom input c (nested body)
  | exhausted {α : Type} {c : Cursor} : ComposedFrom input c (throw .exhausted : Production α)

/-- Production `p` is composed of basic steps wherever it is begun. -/
def Composed {α : Type} (input : Input) (p : Production α) : Prop :=
  ∀ c, ComposedFrom input c p

variable {α β : Type} {input : Input}

theorem Composed.look {p : Production α} {seen : Cursor → α}
    (h : ∀ c, Runs p input c (seen c) c) : Composed input p := fun c => .look (h c)

theorem Composed.bind {p : Production α} {f : α → Production β} (hp : Composed input p)
    (hf : ∀ a c c', Runs p input c a c' → Composed input (f a)) : Composed input (p >>= f) :=
  fun c => .bind (hp c) fun a c' h => hf a c c' h c'

theorem Composed.advance : Composed input advance := fun _ => .advance

theorem Composed.reportAt {place : Option Placed} {m : Message} {args : List String}
    (hm : m ∈ Message.grammatical) (hplace : IsPlaced input place m args) :
    Composed input (reportAt place m args) := fun _ => .reportAt hm hplace

theorem Composed.nested {body : Production α} (h : Composed input body) :
    Composed input (nested body) := fun _ => .nested (h _)

theorem Composed.exhausted : Composed input (throw .exhausted : Production α) :=
  fun _ => .exhausted

theorem Composed.seq {p : Production α} {f : α → Production β} (hp : Composed input p)
    (hf : ∀ a, Composed input (f a)) : Composed input (p >>= f) :=
  hp.bind fun a _ _ _ => hf a

theorem Composed.choose {p q : Production α} {f : α → Production β} {b : Bool}
    (hp : Composed input p) (hq : Composed input q) (hf : ∀ a, Composed input (f a)) :
    Composed input (if b then p >>= f else q >>= f) := by
  cases b with
  | true => exact hp.seq hf
  | false => exact hq.seq hf

theorem composed_pure (a : α) : Composed input (pure a) := .look fun _ => rfl

theorem Composed.discard {p : Production α} (hp : Composed input p) :
    Composed input (Functor.discard p) := hp.seq fun _ => composed_pure _

theorem composed_get : Composed input get := .look fun _ => rfl

theorem composed_read : Composed input read := .look fun _ => rfl

theorem composed_current : Composed input current := .look fun _ => rfl

theorem composed_peek (ahead : Nat) : Composed input (peek ahead) := .look fun _ => rfl

theorem composed_sees (k : Kind) : Composed input (sees k) := .look fun _ => rfl

theorem composed_atEnd : Composed input atEnd := .look fun _ => rfl

theorem composed_index : Composed input index := .look fun _ => rfl

theorem composed_token? : Composed input token? := .look fun _ => rfl

theorem composed_afterLineBreak : Composed input afterLineBreak := .look fun _ => rfl

theorem runs_shown (c : Cursor) : Runs shown input c (shownText (c.token? input)) c := rfl

theorem Composed.bind_shown {f : String → Production α}
    (hf : ∀ c, ComposedFrom input c (f (shownText (c.token? input)))) :
    Composed input (shown >>= f) := by
  intro c
  refine .bind (.look (runs_shown c)) fun found c' h => ?_
  cases (runs_shown c).symm.trans h
  exact hf c

theorem composed_node (kind : Kind) (start : Nat) (children : List Concrete) :
    Composed input (node kind start children) := .look fun _ => rfl

theorem composed_missing (kind : Kind) : Composed input (missing kind) := .look fun _ => rfl

/-- At the end of the input the last token takes the place of the current one. -/
theorem isPlaced_reportPlace {c : Cursor} {m : Message} {args : List String}
    (hwording : Says (shownText (c.token? input)) m args) :
    IsPlaced input ((c.token? input).or input.significant.back?) m args where
  mem x h := by
    rcases Option.or_eq_some_iff.mp h with h | ⟨_, h⟩
    · exact Array.mem_of_getElem? h
    · exact Array.mem_of_back? h
  unplaced h := .inl (by simpa using (Option.or_eq_none_iff.mp h).2)
  wording := by
    refine ⟨_, hwording, ?_⟩
    cases c.token? input with
    | none => exact .inl rfl
    | some x => exact .inr ⟨x, rfl, rfl⟩

theorem composedFrom_report {c : Cursor} {m : Message} {args : List String}
    (hm : m ∈ Message.grammatical) (hwording : Says (shownText (c.token? input)) m args) :
    ComposedFrom input c (report m args) := by
  apply ComposedFrom.bind (composed_token? c)
  rintro _ _ ⟨⟩
  apply ComposedFrom.bind (composed_read c)
  rintro _ _ ⟨⟩
  exact .reportAt hm (isPlaced_reportPlace hwording)

theorem composed_reportExpected (k : Kind) : Composed input (reportExpected k) := by
  apply composed_atEnd.seq
  intro atEnd
  split
  · exact fun c => composedFrom_report (by decide) (.expected _)
  · exact Composed.bind_shown fun c => composedFrom_report (by decide) (.mismatched _)

theorem composed_reportUnexpected : Composed input reportUnexpected := by
  apply composed_atEnd.seq
  intro atEnd
  split
  · exact fun c => composedFrom_report (by decide) (.expected _)
  · exact Composed.bind_shown fun c => composedFrom_report (by decide) .unexpected

theorem composed_reportSet (set : String) : Composed input (reportSet set) :=
  Composed.bind_shown fun c => composedFrom_report (by decide) (.mismatchedSet _)

theorem composed_leaf (kind : Kind) : Composed input (leaf kind) :=
  composed_token?.seq fun _ => Composed.advance.seq fun _ => composed_pure _

theorem composed_eat (k : Kind) : Composed input (eat k) := by
  apply (composed_sees k).seq
  intro found
  split
  · exact Composed.advance.discard.seq fun _ => composed_pure _
  · exact composed_pure _

theorem composed_expect (k : Kind) : Composed input (expect k) := by
  apply (composed_sees k).seq
  intro found
  split
  · exact Composed.advance.discard
  · apply composed_atEnd.seq
    intro atEnd
    apply (composed_peek 1).seq
    intro next
    split
    · exact Composed.bind_shown fun c => .bind (composedFrom_report (by decide) .unexpected)
        fun _ c' _ => (Composed.advance.discard.seq fun _ => Composed.advance.discard) c'
    · exact composed_reportExpected k

theorem composed_endStatement : Composed input endStatement := by
  apply (composed_eat .semicolon).seq
  intro found
  split
  · exact composed_pure _
  · apply composed_atEnd.seq
    intro atEnd
    apply (composed_sees .closeBrace).seq
    intro closes
    apply composed_afterLineBreak.seq
    intro broken
    split
    · exact composed_pure _
    · exact Composed.bind_shown fun c => composedFrom_report (by decide) (.mismatched _)

theorem composed_repeating {step : α → Production (α ⊕ β)}
    (hstep : ∀ a, Composed input (step a)) (n : Nat) (a : α) :
    Composed input (repeating step n a) := by
  induction n generalizing a with
  | zero => exact .exhausted
  | succ n ih =>
    apply (hstep a).seq
    rintro (next | result)
    · exact ih next
    · exact composed_pure _

theorem composed_iterate {step : α → Production (α ⊕ β)} (a : α)
    (hstep : ∀ a, Composed input (step a)) : Composed input (iterate a step) :=
  composed_read.seq fun _ => composed_repeating hstep _ a

/-- The test that begins the steps of most loops. -/
theorem composed_atEnd_or {stops : Production Bool} {x y : Production β}
    (hstops : Composed input stops) (hx : Composed input x) (hy : Composed input y) :
    Composed input (do if (← atEnd) || (← stops) then x else y) := by
  apply composed_atEnd.seq
  intro atEnd
  apply hstops.seq
  intro found
  split
  · exact hx
  · exact hy

theorem composed_identifier : Composed input identifier := by
  apply composed_current.seq
  intro k
  split
  · exact composed_leaf _
  · exact (composed_reportExpected _).seq fun _ => composed_missing _

theorem composed_separated {item : Production Concrete} (hitem : Composed input item) :
    Composed input (separated item) := by
  apply composed_iterate
  intro items
  exact hitem.seq fun _ => (composed_eat _).seq fun _ => composed_pure _

theorem composed_skipToStatement : Composed input skipToStatement := by
  apply Composed.advance.discard.seq
  intro _
  apply composed_iterate
  intro _
  have hstops : Composed input (do return startsStatement (← current)) := .look fun _ => rfl
  exact composed_atEnd_or hstops (composed_pure _)
    (Composed.advance.discard.seq fun _ => composed_pure _)

end Production

/-- The productions of a grammar are composed of basic steps. -/
structure Grammar.IsComposed (g : Grammar) (input : Input) : Prop where
  statement : Production.Composed input g.statement
  assignment : ∀ noIn, Production.Composed input (g.assignment noIn)
  binary : ∀ floor noIn, Production.Composed input (g.binary floor noIn)
  unary : Production.Composed input g.unary
  member : ∀ calls, Production.Composed input (g.member calls)

namespace Production
variable {input : Input} {g : Grammar}

section
variable (hg : g.IsComposed input)
include hg

theorem composed_statements {stops : Production Bool} (hstops : Composed input stops) :
    Composed input (statements g stops) := by
  apply composed_iterate
  intro done
  apply composed_atEnd_or hstops (composed_pure _)
  apply composed_get.seq
  intro before
  apply hg.statement.seq
  intro t
  apply composed_get.seq
  intro after
  split
  · exact composed_skipToStatement.seq fun _ => composed_pure _
  · exact composed_pure _

theorem composed_block : Composed input (block g) :=
  composed_index.seq fun _ => (composed_expect _).seq fun _ =>
    (composed_statements hg (composed_sees _)).seq fun _ => (composed_expect _).seq fun _ =>
    composed_node _ _ _

omit hg in
/-- A list before a closing parenthesis, and what comes after it. -/
theorem composed_listed {β : Type} {item : Production Concrete}
    {rest : List Concrete → Production β} (hitem : Composed input item)
    (hrest : ∀ items, Composed input (rest items)) : Composed input (do
      let items ← if ← sees .closeParen then pure [] else separated item
      expect .closeParen
      rest items) := by
  apply (composed_sees _).seq
  intro found
  split
  · exact (composed_expect _).seq fun _ => hrest []
  · exact (composed_separated hitem).seq fun items => (composed_expect _).seq fun _ => hrest items

theorem composed_function (isStatement : Bool) : Composed input (function g isStatement) := by
  apply Composed.advance.seq
  intro start
  apply composed_current.seq
  intro k
  have hrest (name : List Concrete) := composed_index.seq fun first =>
    (composed_expect .openParen).seq fun _ => composed_listed composed_identifier fun names =>
      (composed_node .arguments first names).seq fun parameters =>
        (composed_block hg).seq fun body =>
          composed_node .functionKeyword start (name ++ [parameters, body])
  split
  · exact (composed_leaf _).seq fun name => hrest [name]
  · split
    · exact (composed_reportExpected _).seq fun _ => hrest []
    · exact hrest []

/-! Expressions. -/

theorem composed_expression (noIn : Bool) : Composed input (expression g noIn) := by
  apply (hg.assignment noIn).seq
  intro first
  apply (composed_eat _).seq
  intro found
  split
  · exact (composed_separated (hg.assignment noIn)).seq fun _ => composed_node _ _ _
  · exact composed_pure _

theorem composed_yieldExpression (noIn : Bool) : Composed input (yieldExpression g noIn) := by
  apply Composed.advance.seq
  intro start
  apply composed_current.seq
  intro k
  apply composed_afterLineBreak.seq
  intro broken
  dsimp only
  split
  · exact composed_node _ _ _
  · exact (hg.assignment noIn).seq fun _ => composed_node _ _ _

omit hg in
theorem composed_selector : Composed input selector := by
  apply composed_current.seq
  intro k
  split
  · exact composed_leaf _
  · exact composed_leaf _
  · split
    · exact composed_leaf _
    · exact (composed_reportSet _).seq fun _ => composed_missing _

theorem composed_arguments : Composed input (arguments g) :=
  composed_index.seq fun _ => (composed_expect _).seq fun _ =>
    composed_listed (hg.assignment false) fun _ => composed_node _ _ _

theorem composed_parenthesized : Composed input (parenthesized g) :=
  Composed.advance.seq fun _ => (composed_expression hg _).seq fun _ =>
    (composed_expect _).seq fun _ => composed_node _ _ _

theorem composed_arrayLiteral : Composed input (arrayLiteral g) := by
  apply Composed.advance.seq
  intro start
  apply Composed.seq
  · apply composed_iterate
    intro items
    apply composed_atEnd_or (composed_sees _) (composed_pure _)
    apply (composed_sees _).seq
    intro hole
    split
    · exact Composed.advance.seq fun _ => composed_pure _
    · exact (hg.assignment false).seq fun _ => (composed_eat _).seq fun _ => composed_pure _
  · exact fun _ => (composed_expect _).seq fun _ => composed_node _ _ _

omit hg in
theorem composed_propertyName : Composed input propertyName := by
  apply composed_current.seq
  intro k
  split
  · exact composed_leaf _
  · split
    · exact composed_leaf _
    · exact (composed_reportSet _).seq fun _ => composed_missing _

theorem composed_accessor (kind : Kind) : Composed input (accessor g kind) := by
  apply Composed.advance.seq
  intro start
  apply composed_propertyName.seq
  intro name
  apply (composed_expect _).seq
  intro _
  have hrest (argument : List Concrete) : Composed input (do
      expect .closeParen
      let body ← block g
      node kind start (name :: argument ++ [body])) :=
    (composed_expect _).seq fun _ => (composed_block hg).seq fun _ => composed_node _ _ _
  split
  · exact composed_identifier.seq fun argument => hrest [argument]
  · exact hrest []

theorem composed_property : Composed input (property g) := by
  apply composed_current.seq
  intro k
  apply (composed_peek 1).seq
  intro next
  split
  · exact composed_accessor hg k
  · exact composed_index.seq fun _ => composed_propertyName.seq fun _ =>
      (composed_expect _).seq fun _ => (hg.assignment false).seq fun _ => composed_node _ _ _

theorem composed_objectLiteral : Composed input (objectLiteral g) := by
  apply Composed.advance.seq
  intro start
  apply Composed.seq
  · apply composed_iterate
    intro members
    apply composed_atEnd_or (composed_sees _) (composed_pure _)
    exact (composed_property hg).seq fun _ => (composed_eat _).seq fun _ => composed_pure _
  · exact fun _ => (composed_expect _).seq fun _ => composed_node _ _ _

theorem composed_xmlLiteral : Composed input (xmlLiteral g) := by
  apply composed_index.seq
  intro start
  apply Composed.seq
  · apply composed_iterate
    intro parts
    apply composed_current.seq
    intro k
    split
    · exact (composed_leaf _).seq fun _ => composed_pure _
    · exact (composed_leaf _).seq fun _ => composed_pure _
    · exact Composed.advance.discard.seq fun _ => (composed_expression hg false).seq fun _ =>
        (composed_expect _).seq fun _ => composed_pure _
    · exact (composed_reportExpected _).seq fun _ => composed_pure _
  · exact fun _ => composed_node _ _ _

theorem composed_operand : Composed input (operand g) := by
  apply composed_current.seq
  intro k
  split
  case h_8 => exact composed_parenthesized hg
  case h_9 => exact composed_arrayLiteral hg
  case h_10 => exact composed_objectLiteral hg
  case h_11 => exact composed_function hg false
  case h_12 => exact composed_xmlLiteral hg
  case h_13 => exact composed_xmlLiteral hg
  case h_14 =>
    split
    · exact composed_leaf _
    · split
      · exact composed_leaf _
      · exact composed_reportUnexpected.seq fun _ => composed_missing _
  all_goals exact composed_leaf _

theorem composed_primary : Composed input (primary g) := by
  apply (composed_sees _).seq
  intro found
  split
  · exact composed_reportUnexpected.seq fun _ => Composed.advance.discard.seq fun _ =>
      composed_operand hg
  · exact composed_operand hg

theorem composed_newExpression : Composed input (newExpression g) := by
  apply Composed.seq
  · exact .nested (Composed.advance.seq fun _ => (hg.member false).seq fun _ => composed_pure _)
  · rintro ⟨start, callee⟩
    apply (composed_sees _).seq
    intro found
    split
    · exact (composed_arguments hg).seq fun _ => (composed_node _ _ _).seq fun _ =>
        composed_node _ _ _
    · exact composed_node _ _ _

theorem composed_member (calls : Bool) : Composed input (member g calls) := by
  apply (composed_sees _).seq
  intro found
  apply Composed.choose (composed_newExpression hg) (composed_primary hg)
  intro first
  apply composed_iterate
  intro object
  apply composed_current.seq
  intro k
  have hselect (tag : Kind) : Composed input (do
      discard advance
      return (.inl (← node tag object.start [object, ← selector]) : Concrete ⊕ Concrete)) :=
    Composed.advance.discard.seq fun _ => composed_selector.seq fun _ =>
      (composed_node _ _ _).seq fun _ => composed_pure _
  split
  · exact hselect _
  · exact hselect _
  · exact hselect _
  · exact Composed.advance.discard.seq fun _ => (composed_expression hg false).seq fun _ =>
      (composed_expect _).seq fun _ => (composed_node _ _ _).seq fun _ => composed_pure _
  · split
    · exact (composed_arguments hg).seq fun _ => (composed_node _ _ _).seq fun _ => composed_pure _
    · exact composed_pure _
  · exact composed_pure _

theorem composed_trailing : Composed input (trailing g) := by
  apply (composed_member hg true).seq
  intro inside
  apply composed_current.seq
  intro k
  split
  · apply composed_afterLineBreak.seq
    intro broken
    split
    · exact composed_pure _
    · exact Composed.advance.discard.seq fun _ => composed_node _ _ _
  · exact composed_pure _

theorem composed_unary : Composed input (unary g) := by
  apply composed_current.seq
  intro k
  split
  · apply Composed.seq
    · exact .nested (Composed.advance.seq fun _ => hg.unary.seq fun _ => composed_pure _)
    · rintro ⟨start, inside⟩
      exact composed_node _ _ _
  · exact composed_trailing hg

theorem composed_binary (floor : Precedence) (noIn : Bool) :
    Composed input (binary g floor noIn) := by
  apply (composed_unary hg).seq
  intro first
  apply composed_iterate
  intro left
  apply composed_current.seq
  intro operator
  split
  · exact composed_pure _
  · split
    · exact composed_pure _
    · split
      · exact composed_pure _
      · exact Composed.advance.discard.seq fun _ => (hg.binary _ _).seq fun _ =>
          (composed_node _ _ _).seq fun _ => composed_pure _

theorem composed_conditional (noIn : Bool) : Composed input (conditional g noIn) := by
  apply (composed_binary hg .lowest noIn).seq
  intro condition
  apply (composed_eat _).seq
  intro found
  split
  · exact (hg.assignment false).seq fun _ => (composed_expect _).seq fun _ =>
      (hg.assignment noIn).seq fun _ => composed_node _ _ _
  · exact composed_pure _

theorem composed_assignment (noIn : Bool) : Composed input (assignment g noIn) := by
  apply Composed.nested
  apply (composed_sees _).seq
  intro found
  split
  · exact composed_yieldExpression hg noIn
  · apply (composed_conditional hg noIn).seq
    intro target
    apply composed_current.seq
    intro operator
    split
    · exact Composed.advance.discard.seq fun _ => (hg.assignment noIn).seq fun _ =>
        composed_node _ _ _
    · exact composed_pure _

/-! Statements. -/

theorem composed_declarations (noIn : Bool) : Composed input (declarations g noIn) := by
  apply composed_current.seq
  intro keyword
  apply Composed.advance.seq
  intro start
  apply Composed.seq
  · apply composed_separated
    apply composed_identifier.seq
    intro name
    apply (composed_eat _).seq
    intro found
    split
    · exact (hg.assignment noIn).seq fun _ => composed_node _ _ _
    · exact composed_pure _
  · exact fun _ => composed_node _ _ _

theorem composed_constStatement : Composed input (constStatement g) :=
  composed_index.seq fun _ => (composed_declarations hg false).seq fun _ =>
    composed_endStatement.seq fun _ => composed_get.seq fun _ => composed_read.seq fun _ =>
    composed_pure _

theorem composed_condition : Composed input (condition g) :=
  (composed_expect _).seq fun _ => (composed_expression hg false).seq fun _ =>
    (composed_expect _).seq fun _ => composed_pure _

theorem composed_ifStatement : Composed input (ifStatement g) := by
  apply Composed.advance.seq
  intro start
  apply (composed_condition hg).seq
  intro test
  apply hg.statement.seq
  intro consequence
  apply (composed_eat _).seq
  intro found
  split
  · exact hg.statement.seq fun _ => composed_node _ _ _
  · exact composed_node _ _ _

theorem composed_doStatement : Composed input (doStatement g) :=
  Composed.advance.seq fun _ => hg.statement.seq fun _ => (composed_expect _).seq fun _ =>
    (composed_condition hg).seq fun _ => (composed_eat _).discard.seq fun _ => composed_node _ _ _

theorem composed_whileStatement : Composed input (whileStatement g) :=
  Composed.advance.seq fun _ => (composed_condition hg).seq fun _ => hg.statement.seq fun _ =>
    composed_node _ _ _

theorem composed_forIteration (start : Nat) (item : Concrete) :
    Composed input (forIteration g start item) :=
  Composed.advance.discard.seq fun _ => (composed_expression hg false).seq fun _ =>
    composed_node _ _ _

theorem composed_optionalClause (before : Kind) : Composed input (optionalClause g before) := by
  apply (composed_sees _).seq
  intro found
  split
  · exact composed_index.seq fun _ => composed_pure _
  · exact (composed_expression hg false).seq fun _ => composed_pure _

theorem composed_forSteps (start : Nat) (first : Option Concrete) :
    Composed input (forSteps g start first) := by
  have hrest (initial : Concrete) : Composed input (do
      expect .semicolon
      let test ← optionalClause g .semicolon
      expect .semicolon
      let step ← optionalClause g .closeParen
      node .forStep start [initial, test, step]) :=
    (composed_expect _).seq fun _ => (composed_optionalClause hg _).seq fun _ =>
      (composed_expect _).seq fun _ => (composed_optionalClause hg _).seq fun _ =>
      composed_node _ _ _
  cases first with
  | some t => exact hrest (clause t)
  | none => exact composed_index.seq fun _ => hrest _

theorem composed_forHead : Composed input (forHead g) := by
  have hrest (start : Nat) (first : Concrete) : Composed input (do
      if ← sees .inKeyword then forIteration g start first
      else forSteps g start (some first)) := by
    apply (composed_sees _).seq
    intro found
    split
    · exact composed_forIteration hg start first
    · exact composed_forSteps hg start first
  apply composed_index.seq
  intro start
  apply (composed_sees _).seq
  intro found
  split
  · exact composed_forSteps hg start none
  · apply (composed_sees _).seq
    intro found
    exact Composed.choose (composed_declarations hg true) (composed_expression hg true)
      (hrest start)

omit hg in
/-- Where the head of a `for each` loop would begin there is a token, or the input ends. -/
theorem isPlaced_head {c : Cursor} {p e : Nat} (hfor : input.Sees p .forKeyword)
    (heach : input.Sees (p + 1) .eachKeyword)
    (hparen : Expects input .openParen (p + 2) c.pos e) :
    IsPlaced input (c.token? input) .expected [Kind.inKeyword.describe] where
  mem _ := Array.mem_of_getElem?
  unplaced h :=
    .inr ⟨rfl, rfl, p, c.pos, e, hfor, heach, hparen, Array.getElem?_eq_none_iff.mp h⟩
  wording := ⟨_, .expected _, .inl rfl⟩

/-- The token that begins the head is kept for a report after the body. -/
theorem composedFrom_forStatement {c : Cursor} (hfor : input.Sees c.pos .forKeyword) :
    ComposedFrom input c (forStatement g) := by
  have hrest (start : Nat) (each : Bool) (place : Option Placed)
      (hplace : each = true → IsPlaced input place .expected [Kind.inKeyword.describe]) :
      Composed input (do
        let head ← forHead g
        expect .closeParen
        let body ← g.statement
        if each && head.kind == .forIter then
          node .forEach start [head, body]
        else
          if each then reportAt place .expected [Kind.inKeyword.describe]
          node .forKeyword start [head, body]) := by
    apply (composed_forHead hg).seq
    intro head
    apply (composed_expect _).seq
    intro _
    apply hg.statement.seq
    intro body
    split
    · exact composed_node _ _ _
    · split
      · rename_i heach
        exact (Composed.reportAt (by decide) (hplace heach)).seq fun _ => composed_node _ _ _
      · exact composed_node _ _ _
  apply ComposedFrom.bind .advance
  intro start c₁ hstart
  obtain ⟨-, rfl⟩ := hstart.advance hfor.lt_size
  apply ComposedFrom.bind (composed_eat _ _)
  intro each c₂ heat
  apply ComposedFrom.bind (composed_expect _ _)
  intro _ c₃ hexpect
  apply ComposedFrom.bind (composed_token? _)
  rintro place _ ⟨⟩
  apply hrest start each (c₃.token? input)
  rintro rfl
  obtain ⟨heach, -, rfl⟩ | ⟨-, hfound, -⟩ := heat.eat_cases nofun
  · obtain ⟨e, -, hparen⟩ := hexpect.expect nofun
    exact isPlaced_head hfor heach hparen
  · cases hfound

omit hg in
theorem composed_jumpStatement : Composed input jumpStatement := by
  apply composed_current.seq
  intro kind
  apply Composed.advance.seq
  intro start
  apply composed_current.seq
  intro k
  apply composed_afterLineBreak.seq
  intro broken
  dsimp only
  split
  · exact (composed_leaf _).seq fun _ => composed_endStatement.seq fun _ => composed_node _ _ _
  · exact composed_endStatement.seq fun _ => composed_node _ _ _

theorem composed_returnStatement : Composed input (returnStatement g) := by
  apply Composed.advance.seq
  intro start
  apply composed_current.seq
  intro k
  apply composed_afterLineBreak.seq
  intro broken
  dsimp only
  split
  · exact composed_endStatement.seq fun _ => composed_node _ _ _
  · exact (composed_expression hg false).seq fun _ => composed_endStatement.seq fun _ =>
      composed_node _ _ _

theorem composed_throwStatement : Composed input (throwStatement g) :=
  Composed.advance.seq fun _ => (composed_expression hg false).seq fun _ =>
    composed_endStatement.seq fun _ => composed_node _ _ _

theorem composed_withStatement : Composed input (withStatement g) :=
  Composed.advance.seq fun _ => (composed_condition hg).seq fun _ => hg.statement.seq fun _ =>
    composed_node _ _ _

omit hg in
theorem composed_atClauseEnd : Composed input atClauseEnd := by
  apply composed_current.seq
  intro k
  split
  · exact composed_pure _
  · exact composed_pure _
  · exact (composed_peek 1).seq fun _ => composed_pure _
  · exact composed_pure _

omit hg in
theorem composed_skipToClauseEnd : Composed input skipToClauseEnd := by
  apply composed_iterate
  intro _
  exact composed_atEnd_or composed_atClauseEnd (composed_pure _)
    (Composed.advance.discard.seq fun _ => composed_pure _)

theorem composed_caseClause : Composed input (caseClause g) :=
  Composed.advance.seq fun _ => (composed_expression hg false).seq fun _ =>
    (composed_expect _).seq fun _ => (composed_statements hg composed_atClauseEnd).seq fun _ =>
    composed_node _ _ _

theorem composed_defaultClause : Composed input (defaultClause g) :=
  Composed.advance.seq fun _ => (composed_expect _).seq fun _ =>
    (composed_statements hg composed_atClauseEnd).seq fun _ => composed_node _ _ _

theorem composed_switchStatement : Composed input (switchStatement g) := by
  apply Composed.advance.seq
  intro start
  apply (composed_condition hg).seq
  intro subject
  apply (composed_expect _).seq
  intro _
  apply Composed.seq
  · apply composed_iterate
    intro clauses
    apply composed_atEnd_or (composed_sees _) (composed_pure _)
    apply composed_current.seq
    intro k
    split
    · exact (composed_caseClause hg).seq fun _ => composed_pure _
    · apply composed_atClauseEnd.seq
      intro ends
      split
      · exact (composed_defaultClause hg).seq fun _ => composed_pure _
      · exact composed_reportUnexpected.seq fun _ => composed_skipToClauseEnd.seq fun _ =>
          composed_pure _
  · exact fun _ => (composed_expect _).seq fun _ => composed_node _ _ _

theorem composed_catchClause : Composed input (catchClause g) := by
  apply Composed.advance.seq
  intro start
  apply (composed_expect _).seq
  intro _
  apply composed_identifier.seq
  intro exception
  have hrest (filter : List Concrete) : Composed input (do
      expect .closeParen
      let body ← block g
      node .catchKeyword start (exception :: filter ++ [body])) :=
    (composed_expect _).seq fun _ => (composed_block hg).seq fun _ => composed_node _ _ _
  apply (composed_sees _).seq
  intro found
  split
  · apply Composed.seq _ fun filter => hrest [filter]
    exact Composed.advance.seq fun _ => (composed_expression hg false).seq fun _ =>
      composed_node _ _ _
  · exact hrest []

theorem composed_finallyClause : Composed input (finallyClause g) :=
  Composed.advance.seq fun _ => (composed_block hg).seq fun _ => composed_node _ _ _

theorem composed_tryStatement : Composed input (tryStatement g) := by
  apply Composed.advance.seq
  intro start
  apply (composed_block hg).seq
  intro body
  apply Composed.seq
  · apply composed_iterate
    intro catches
    apply (composed_sees _).seq
    intro found
    split
    · exact (composed_catchClause hg).seq fun _ => composed_pure _
    · exact composed_pure _
  · intro catches
    have hrest (last : List Concrete) : Composed input (do
        let clauses := catches ++ last
        if clauses.isEmpty then reportExpected .catchKeyword
        node .tryKeyword start (body :: clauses)) := by
      dsimp only
      split
      · exact (composed_reportExpected _).seq fun _ => composed_node _ _ _
      · exact composed_node _ _ _
    apply (composed_sees _).seq
    intro found
    split
    · exact (composed_finallyClause hg).seq fun last => hrest [last]
    · exact hrest []

omit hg in
theorem composed_requiredLeaf (k : Kind) : Composed input (requiredLeaf k) := by
  apply (composed_sees _).seq
  intro found
  split
  · exact (composed_leaf _).seq fun _ => composed_pure _
  · exact (composed_reportExpected _).seq fun _ => composed_pure _

theorem composed_defaultXmlNamespace : Composed input (defaultXmlNamespace g) :=
  composed_index.seq fun _ => (composed_leaf _).seq fun _ => (composed_leaf _).seq fun _ =>
    (composed_requiredLeaf _).seq fun _ => (composed_requiredLeaf _).seq fun _ =>
    (composed_expression hg false).seq fun _ => composed_endStatement.seq fun _ =>
    composed_node _ _ _

theorem composed_labelledStatement : Composed input (labelledStatement g) :=
  composed_index.seq fun _ => (composed_leaf _).seq fun _ => Composed.advance.discard.seq fun _ =>
    hg.statement.seq fun _ => composed_node _ _ _

theorem composed_expressionStatement : Composed input (expressionStatement g) := by
  apply (composed_expression hg false).seq
  intro value
  split
  · exact composed_pure _
  · exact composed_endStatement.seq fun _ => composed_pure _

theorem composed_variableStatement : Composed input (variableStatement g) :=
  (composed_declarations hg false).seq fun _ => composed_endStatement.seq fun _ => composed_pure _

omit hg in
theorem composed_emptyStatement : Composed input emptyStatement :=
  Composed.advance.seq fun _ => composed_pure _

theorem composed_statement : Composed input (statement g) := by
  intro c
  apply ComposedFrom.nested
  apply ComposedFrom.bind (composed_current _)
  rintro k c' hcurrent
  have hkind : k = input.kindAt c'.pos := by
    cases hcurrent
    rfl
  split
  · exact composed_block hg _
  · exact composed_emptyStatement _
  · exact composed_variableStatement hg _
  · exact composed_constStatement hg _
  · exact composed_function hg true _
  · exact composed_ifStatement hg _
  · exact composed_doStatement hg _
  · exact composed_whileStatement hg _
  · exact composedFrom_forStatement hg (Input.sees_of_kindAt hkind.symm nofun)
  · exact composed_jumpStatement _
  · exact composed_jumpStatement _
  · exact composed_returnStatement hg _
  · exact composed_throwStatement hg _
  · exact composed_withStatement hg _
  · exact composed_switchStatement hg _
  · exact composed_tryStatement hg _
  · apply ComposedFrom.bind (composed_peek 1 _)
    intro next c₁ _
    split
    · exact composed_defaultXmlNamespace hg _
    · apply ComposedFrom.bind (composed_peek 1 _)
      intro next c₂ _
      split
      · exact composed_labelledStatement hg _
      · exact composed_expressionStatement hg _

end
end Production

/-- A grammar whose allowance is spent gives up at once. -/
theorem Grammar.within_composed (input : Input) (n : Nat) : (within n).IsComposed input := by
  induction n with
  | zero =>
    exact ⟨.exhausted, fun _ => .exhausted, fun _ _ => .exhausted, .exhausted, fun _ => .exhausted⟩
  | succ n ih =>
    exact ⟨Production.composed_statement ih, Production.composed_assignment ih,
      Production.composed_binary ih, Production.composed_unary ih, Production.composed_member ih⟩

namespace Production

theorem composed_program (input : Input) : Composed input Production.program :=
  composed_index.seq fun _ => composed_read.seq fun _ =>
    (composed_statements (Grammar.within_composed input _) (composed_pure _)).seq fun _ =>
    composed_node _ _ _

/-! What basic steps keep. -/

variable {α β : Type} {input : Input}

/-- The cursor that a production leaves, whether it gives a tree or halts. -/
def cursorAfter (p : Production α) (input : Input) (c : Cursor) : Cursor :=
  match p input c with
  | .ok _ c' => c'
  | .error _ c' => c'

theorem Runs.cursorAfter_eq {p : Production α} {c c' : Cursor} {a : α} (h : Runs p input c a c') :
    cursorAfter p input c = c' := by
  unfold Runs at h
  rw [cursorAfter, h]

theorem cursorAfter_bind (p : Production α) (f : α → Production β) (c : Cursor) :
    cursorAfter (p >>= f) input c = match p input c with
      | .ok a c₁ => cursorAfter (f a) input c₁
      | .error _ c₁ => c₁ := by
  unfold cursorAfter
  change (match (p input >>= fun a => f a input) c with
    | .ok _ c' => c'
    | .error _ c' => c') = _
  simp only [Bind.bind, EStateM.bind]
  cases p input c <;> rfl

theorem cursorAfter_leaving (body : Production α) (c : Cursor) :
    cursorAfter (leaving body) input c =
      let c' := cursorAfter body input c
      { c' with depth := c'.depth - 1 } := by
  unfold cursorAfter leaving
  cases body input c <;> rfl

/-- What holds of a cursor however it is moved, as long as the reports are those of the grammar. -/
structure Stays (input : Input) (P : Cursor → Prop) : Prop where
  next : ∀ {c}, P c → P c.next
  level : ∀ {c} depth, P c → P { c with depth }
  report : ∀ {c place m args}, m ∈ Message.tooDeep :: Message.grammatical →
    IsPlaced input place m args → P c →
    P (c.reported (diagnosticAt input.lines place m args))

/-- Going deeper than the limit is reported, at the token where it happens. -/
theorem enter_eq (c : Cursor) : enter input c =
    let deeper := { c with depth := c.depth + 1 }
    let place := (c.token? input).or input.significant.back?
    if input.limit < deeper.depth then
      .error (.tooDeep input.limit (c.index input))
        (deeper.reported (diagnosticAt input.lines place .tooDeep [toString input.limit]))
    else .ok () deeper := by
  unfold enter
  change (if input.limit < c.depth + 1 then _ else _ : Production Unit) input _ = _
  dsimp only
  split <;> rfl

theorem Stays.deeper {P : Cursor → Prop} {body : Production α} (hP : Stays input P) {c : Cursor}
    (hbody : P { c with depth := c.depth + 1 } →
      P (cursorAfter body input { c with depth := c.depth + 1 })) (hc : P c) :
    P (cursorAfter (nested body) input c) := by
  have hdeeper : P { c with depth := c.depth + 1 } := hP.level _ hc
  unfold Production.nested
  rw [cursorAfter_bind, enter_eq]
  dsimp only
  by_cases hlimit : input.limit < c.depth + 1
  · rw [if_pos hlimit]
    exact hP.report (.head _) (isPlaced_reportPlace (.tooDeep _)) hdeeper
  · rw [if_neg hlimit]
    dsimp only
    rw [cursorAfter_leaving]
    exact hP.level _ (hbody hdeeper)

/-- What basic steps keep is kept by what is composed of them. -/
theorem ComposedFrom.keeps {P : Cursor → Prop} {p : Production α} {c : Cursor}
    (h : ComposedFrom input c p) (hP : Stays input P) : P c → P (cursorAfter p input c) := by
  induction h with
  | look hseen =>
    rw [hseen.cursorAfter_eq]
    exact id
  | @bind _ _ p f c hp hf ihp ihf =>
    intro hc
    -- A step that halts leaves its cursor as the one of the whole.
    have hfirst := ihp hc
    rw [cursorAfter_bind]
    unfold cursorAfter at hfirst
    cases hrun : p input c with
    | ok a c₁ =>
      rw [hrun] at hfirst
      exact ihf a c₁ hrun hfirst
    | error halt c₁ =>
      rw [hrun] at hfirst
      exact hfirst
  | @advance c =>
    intro hc
    by_cases hpos : c.pos < input.significant.size
    · rw [(runs_advance hpos).cursorAfter_eq]
      exact hP.next hc
    · rw [(runs_advance_end (Nat.le_of_not_lt hpos)).cursorAfter_eq]
      exact hc
  | reportAt hm hplace => exact hP.report (.tail _ hm) hplace
  | nested hbody ih => exact hP.deeper ih
  | exhausted => exact id

/-- A report of the grammar: one of its messages, put where it may be. -/
def MayReport (input : Input) (d : Diagnostic) : Prop :=
  ∃ m ∈ Message.tooDeep :: Message.grammatical, ∃ place args,
    IsPlaced input place m args ∧ d = diagnosticAt input.lines place m args

theorem stays_mayReport : Stays input fun c => ∀ d ∈ c.problems, MayReport input d where
  next := id
  level _ := id
  report hm hplace hc d hd := by
    rcases Array.mem_push.mp hd with hd | rfl
    · exact hc d hd
    · exact ⟨_, hm, _, _, hplace, rfl⟩

end Production

theorem Cursor.program_snd (c : Cursor) (input : Input) :
    (c.program input).2 = Production.cursorAfter Production.program input c := by
  unfold Cursor.program Production.cursorAfter
  cases Production.program input c <;> rfl

/-- All that is reported while a script is read is a report of the grammar, also when no script
comes of it. -/
theorem program_mayReport (input : Input) :
    ∀ d ∈ (Cursor.initial.program input).2.problems, Production.MayReport input d := by
  rw [Cursor.program_snd]
  refine (Production.composed_program input _).keeps Production.stays_mayReport ?_
  intro d hd
  exact absurd hd (Array.not_mem_empty d)

end ScriptTree
