import ScriptTree.Proofs.BasicSteps

/-!
A greater limit on levels. The limit is looked at only where a production goes a level deeper, and
the allowance of nested calls grows with it. So what is read within one limit is read within every
greater one, with the same tree, the same reports and the same tokens left.
-/
namespace ScriptTree

/-- The same tokens under another limit on levels. -/
def Input.allowing (input : Input) (limit : Nat) : Input := { input with limit }

theorem Input.ofTokens_allowing (tokens : Array Token) (lines : LineMap) (limit limit' : Nat) :
    (ofTokens tokens lines limit).allowing limit' = ofTokens tokens lines limit' := rfl

namespace Production
variable {α β : Type} {input : Input} {limit : Nat}

/-- What `p` gives within the limit of the input, `q` gives within `limit`. -/
def Persists (input : Input) (limit : Nat) (p q : Production α) : Prop :=
  ∀ c a c', Runs p input c a c' → Runs q (input.allowing limit) c a c'

theorem Persists.bind {p q : Production α} {f f' : α → Production β}
    (h : Persists input limit p q) (hf : ∀ a, Persists input limit (f a) (f' a)) :
    Persists input limit (p >>= f) (q >>= f') := by
  intro c b c' hrun
  obtain ⟨a, c₁, hp, hrun⟩ := hrun.bind
  exact (h c a c₁ hp).andThen (hf a c₁ b c' hrun)

theorem Persists.choose {p p' q q' : Production α} {f f' : α → Production β} {b : Bool}
    (hp : Persists input limit p p') (hq : Persists input limit q q')
    (hf : ∀ a, Persists input limit (f a) (f' a)) :
    Persists input limit (if b then p >>= f else q >>= f)
      (if b then p' >>= f' else q' >>= f') := by
  cases b with
  | true => exact hp.bind hf
  | false => exact hq.bind hf

/-- A production that does not look at the limit. -/
theorem persists_same {p : Production α} (h : ∀ c, p (input.allowing limit) c = p input c) :
    Persists input limit p p := by
  intro c a c' hrun
  unfold Runs at hrun ⊢
  rw [h, hrun]

theorem persists_pure (a : α) : Persists input limit (pure a) (pure a) :=
  persists_same fun _ => rfl

theorem persists_exhausted {q : Production α} : Persists input limit (throw .exhausted) q :=
  fun _ _ _ hrun => absurd hrun not_runs_throw

theorem persists_repeating {step step' : α → Production (α ⊕ β)}
    (hstep : ∀ a, Persists input limit (step a) (step' a)) (n : Nat) (a : α) :
    Persists input limit (repeating step n a) (repeating step' n a) := by
  induction n generalizing a with
  | zero => exact persists_exhausted
  | succ n ih =>
    apply (hstep a).bind
    rintro (next | result)
    · exact ih next
    · exact persists_pure result

theorem persists_bind_read {f f' : Input → Production α}
    (h : Persists input limit (f input) (f' (input.allowing limit))) :
    Persists input limit (read >>= f) (read >>= f') := h

theorem persists_iterate {step step' : α → Production (α ⊕ β)} (a : α)
    (hstep : ∀ a, Persists input limit (step a) (step' a)) :
    Persists input limit (iterate a step) (iterate a step') :=
  persists_bind_read (persists_repeating hstep (input.count + 1) a)

/-- A level that is within the limit is within a greater one. -/
theorem persists_nested (hlimit : input.limit ≤ limit) {body body' : Production α}
    (h : Persists input limit body body') :
    Persists input limit (nested body) (nested body') := by
  apply Persists.bind
  · intro c u c' henter
    unfold Runs at henter ⊢
    rw [enter_eq] at henter ⊢
    dsimp only at henter ⊢
    split at henter
    · cases henter
    · rename_i hlevel
      have hlevel' : ¬(input.allowing limit).limit < c.depth + 1 :=
        fun hlt => hlevel (Nat.lt_of_le_of_lt hlimit hlt)
      rw [if_neg hlevel']
      exact henter
  · intro _ c a c' hleaving
    unfold Runs leaving at hleaving ⊢
    cases hbody : body input c with
    | ok b c₁ =>
      rw [hbody] at hleaving
      have hbody' : body' (input.allowing limit) c = .ok b c₁ := h c b c₁ hbody
      rw [hbody']
      exact hleaving
    | error halt c₁ =>
      rw [hbody] at hleaving
      cases hleaving

/-! Basic productions. -/

theorem Persists.discard {p q : Production α} (h : Persists input limit p q) :
    Persists input limit (Functor.discard p) (Functor.discard q) := h.bind fun _ => persists_pure _

theorem persists_get : Persists input limit get get := persists_same fun _ => rfl

theorem persists_current : Persists input limit current current := persists_same fun _ => rfl

theorem persists_peek (ahead : Nat) : Persists input limit (peek ahead) (peek ahead) :=
  persists_same fun _ => rfl

theorem persists_sees (k : Kind) : Persists input limit (sees k) (sees k) :=
  persists_same fun _ => rfl

theorem persists_atEnd : Persists input limit atEnd atEnd := persists_same fun _ => rfl

theorem persists_index : Persists input limit index index := persists_same fun _ => rfl

theorem persists_token? : Persists input limit token? token? := persists_same fun _ => rfl

theorem persists_afterLineBreak : Persists input limit afterLineBreak afterLineBreak :=
  persists_same fun _ => rfl

theorem persists_shown : Persists input limit shown shown := persists_same fun _ => rfl

theorem persists_node (kind : Kind) (start : Nat) (children : List Concrete) :
    Persists input limit (node kind start children) (node kind start children) :=
  persists_same fun _ => rfl

theorem persists_missing (kind : Kind) : Persists input limit (missing kind) (missing kind) :=
  persists_same fun _ => rfl

theorem persists_advance : Persists input limit advance advance := by
  apply persists_index.bind
  intro place
  apply persists_atEnd.bind
  intro atEnd
  cases atEnd <;> exact persists_same fun _ => rfl

theorem persists_reportAt (place : Option Placed) (m : Message) (args : List String) :
    Persists input limit (reportAt place m args) (reportAt place m args) :=
  persists_same fun _ => rfl

theorem persists_report (m : Message) (args : List String) :
    Persists input limit (report m args) (report m args) := persists_same fun _ => rfl

theorem persists_reportExpected (k : Kind) :
    Persists input limit (reportExpected k) (reportExpected k) := by
  apply persists_atEnd.bind
  intro atEnd
  split
  · exact persists_report _ _
  · exact persists_shown.bind fun _ => persists_report _ _

theorem persists_reportUnexpected : Persists input limit reportUnexpected reportUnexpected := by
  apply persists_atEnd.bind
  intro atEnd
  split
  · exact persists_report _ _
  · exact persists_shown.bind fun _ => persists_report _ _

theorem persists_reportSet (set : String) : Persists input limit (reportSet set) (reportSet set) :=
  persists_shown.bind fun _ => persists_report _ _

theorem persists_leaf (kind : Kind) : Persists input limit (leaf kind) (leaf kind) :=
  persists_token?.bind fun _ => persists_advance.bind fun _ => persists_pure _

theorem persists_eat (k : Kind) : Persists input limit (eat k) (eat k) := by
  apply (persists_sees k).bind
  intro found
  split
  · exact persists_advance.discard.bind fun _ => persists_pure _
  · exact persists_pure _

theorem persists_expect (k : Kind) : Persists input limit (expect k) (expect k) := by
  apply (persists_sees k).bind
  intro found
  split
  · exact persists_advance.discard
  · apply persists_atEnd.bind
    intro atEnd
    apply (persists_peek 1).bind
    intro next
    split
    · exact persists_shown.bind fun _ => (persists_report _ _).bind fun _ =>
        persists_advance.discard.bind fun _ => persists_advance.discard
    · exact persists_reportExpected k

theorem persists_endStatement : Persists input limit endStatement endStatement := by
  apply (persists_eat .semicolon).bind
  intro found
  split
  · exact persists_pure _
  · apply persists_atEnd.bind
    intro atEnd
    apply (persists_sees .closeBrace).bind
    intro closes
    apply persists_afterLineBreak.bind
    intro broken
    split
    · exact persists_pure _
    · exact persists_shown.bind fun _ => persists_report _ _

/-- The test that begins the steps of most loops. -/
theorem persists_atEnd_or {stops : Production Bool} {x x' y y' : Production β}
    (hstops : Persists input limit stops stops) (hx : Persists input limit x x')
    (hy : Persists input limit y y') :
    Persists input limit (do if (← atEnd) || (← stops) then x else y)
      (do if (← atEnd) || (← stops) then x' else y') := by
  apply persists_atEnd.bind
  intro atEnd
  apply hstops.bind
  intro found
  split
  · exact hx
  · exact hy

theorem persists_identifier : Persists input limit identifier identifier := by
  apply persists_current.bind
  intro k
  split
  · exact persists_leaf _
  · exact (persists_reportExpected _).bind fun _ => persists_missing _

theorem persists_separated {item item' : Production Concrete}
    (hitem : Persists input limit item item') :
    Persists input limit (separated item) (separated item') := by
  apply persists_iterate
  intro items
  exact hitem.bind fun _ => (persists_eat _).bind fun _ => persists_pure _

theorem persists_skipToStatement : Persists input limit skipToStatement skipToStatement := by
  apply persists_advance.discard.bind
  intro _
  apply persists_iterate
  intro _
  have hstops : Persists input limit (do return startsStatement (← current))
      (do return startsStatement (← current)) := persists_same fun _ => rfl
  exact persists_atEnd_or hstops (persists_pure _)
    (persists_advance.discard.bind fun _ => persists_pure _)

end Production

/-- What the productions of `g` give within the limit of the input, those of `g'` give within
`limit`, which is no less. -/
structure Grammar.Persists (input : Input) (limit : Nat) (g g' : Grammar) : Prop where
  limit_le : input.limit ≤ limit
  statement : Production.Persists input limit g.statement g'.statement
  assignment : ∀ noIn, Production.Persists input limit (g.assignment noIn) (g'.assignment noIn)
  binary : ∀ floor noIn,
    Production.Persists input limit (g.binary floor noIn) (g'.binary floor noIn)
  unary : Production.Persists input limit g.unary g'.unary
  member : ∀ calls, Production.Persists input limit (g.member calls) (g'.member calls)

namespace Production
variable {input : Input} {limit : Nat} {g g' : Grammar}

section
variable (hg : Grammar.Persists input limit g g')
include hg

theorem persists_statements {stops : Production Bool} (hstops : Persists input limit stops stops) :
    Persists input limit (statements g stops) (statements g' stops) := by
  apply persists_iterate
  intro done
  apply persists_atEnd_or hstops (persists_pure _)
  apply persists_get.bind
  intro before
  apply hg.statement.bind
  intro t
  apply persists_get.bind
  intro after
  split
  · exact persists_skipToStatement.bind fun _ => persists_pure _
  · exact persists_pure _

theorem persists_block : Persists input limit (block g) (block g') :=
  persists_index.bind fun _ => (persists_expect _).bind fun _ =>
    (persists_statements hg (persists_sees _)).bind fun _ => (persists_expect _).bind fun _ =>
    persists_node _ _ _

omit hg in
/-- A list before a closing parenthesis, and what comes after it. -/
theorem persists_listed {β : Type} {item item' : Production Concrete}
    {rest rest' : List Concrete → Production β} (hitem : Persists input limit item item')
    (hrest : ∀ items, Persists input limit (rest items) (rest' items)) :
    Persists input limit
      (do
        let items ← if ← sees .closeParen then pure [] else separated item
        expect .closeParen
        rest items)
      (do
        let items ← if ← sees .closeParen then pure [] else separated item'
        expect .closeParen
        rest' items) := by
  apply (persists_sees _).bind
  intro found
  split
  · exact (persists_expect _).bind fun _ => hrest []
  · exact (persists_separated hitem).bind fun items =>
      (persists_expect _).bind fun _ => hrest items

theorem persists_function (isStatement : Bool) :
    Persists input limit (function g isStatement) (function g' isStatement) := by
  apply persists_advance.bind
  intro start
  apply persists_current.bind
  intro k
  have hrest (name : List Concrete) := persists_index.bind fun first =>
    (persists_expect .openParen).bind fun _ => persists_listed persists_identifier fun names =>
      (persists_node .arguments first names).bind fun parameters =>
        (persists_block hg).bind fun body =>
          persists_node .functionKeyword start (name ++ [parameters, body])
  split
  · exact (persists_leaf _).bind fun name => hrest [name]
  · split
    · exact (persists_reportExpected _).bind fun _ => hrest []
    · exact hrest []

/-! Expressions. -/

theorem persists_expression (noIn : Bool) :
    Persists input limit (expression g noIn) (expression g' noIn) := by
  apply (hg.assignment noIn).bind
  intro first
  apply (persists_eat _).bind
  intro found
  split
  · exact (persists_separated (hg.assignment noIn)).bind fun _ => persists_node _ _ _
  · exact persists_pure _

theorem persists_yieldExpression (noIn : Bool) :
    Persists input limit (yieldExpression g noIn) (yieldExpression g' noIn) := by
  apply persists_advance.bind
  intro start
  apply persists_current.bind
  intro k
  apply persists_afterLineBreak.bind
  intro broken
  dsimp only
  split
  · exact persists_node _ _ _
  · exact (hg.assignment noIn).bind fun _ => persists_node _ _ _

omit hg in
theorem persists_selector : Persists input limit selector selector := by
  apply persists_current.bind
  intro k
  split
  · exact persists_leaf _
  · exact persists_leaf _
  · split
    · exact persists_leaf _
    · exact (persists_reportSet _).bind fun _ => persists_missing _

theorem persists_arguments : Persists input limit (arguments g) (arguments g') :=
  persists_index.bind fun _ => (persists_expect _).bind fun _ =>
    persists_listed (hg.assignment false) fun _ => persists_node _ _ _

theorem persists_parenthesized : Persists input limit (parenthesized g) (parenthesized g') :=
  persists_advance.bind fun _ => (persists_expression hg _).bind fun _ =>
    (persists_expect _).bind fun _ => persists_node _ _ _

theorem persists_arrayLiteral : Persists input limit (arrayLiteral g) (arrayLiteral g') := by
  apply persists_advance.bind
  intro start
  apply Persists.bind
  · apply persists_iterate
    intro items
    apply persists_atEnd_or (persists_sees _) (persists_pure _)
    apply (persists_sees _).bind
    intro hole
    split
    · exact persists_advance.bind fun _ => persists_pure _
    · exact (hg.assignment false).bind fun _ => (persists_eat _).bind fun _ => persists_pure _
  · exact fun _ => (persists_expect _).bind fun _ => persists_node _ _ _

omit hg in
theorem persists_propertyName : Persists input limit propertyName propertyName := by
  apply persists_current.bind
  intro k
  split
  · exact persists_leaf _
  · split
    · exact persists_leaf _
    · exact (persists_reportSet _).bind fun _ => persists_missing _

theorem persists_accessor (kind : Kind) :
    Persists input limit (accessor g kind) (accessor g' kind) := by
  apply persists_advance.bind
  intro start
  apply persists_propertyName.bind
  intro name
  apply (persists_expect _).bind
  intro _
  have hrest (argument : List Concrete) : Persists input limit (do
      expect .closeParen
      let body ← block g
      node kind start (name :: argument ++ [body])) (do
      expect .closeParen
      let body ← block g'
      node kind start (name :: argument ++ [body])) :=
    (persists_expect _).bind fun _ => (persists_block hg).bind fun _ => persists_node _ _ _
  split
  · exact persists_identifier.bind fun argument => hrest [argument]
  · exact hrest []

theorem persists_property : Persists input limit (property g) (property g') := by
  apply persists_current.bind
  intro k
  apply (persists_peek 1).bind
  intro next
  split
  · exact persists_accessor hg k
  · exact persists_index.bind fun _ => persists_propertyName.bind fun _ =>
      (persists_expect _).bind fun _ => (hg.assignment false).bind fun _ => persists_node _ _ _

theorem persists_objectLiteral : Persists input limit (objectLiteral g) (objectLiteral g') := by
  apply persists_advance.bind
  intro start
  apply Persists.bind
  · apply persists_iterate
    intro members
    apply persists_atEnd_or (persists_sees _) (persists_pure _)
    exact (persists_property hg).bind fun _ => (persists_eat _).bind fun _ => persists_pure _
  · exact fun _ => (persists_expect _).bind fun _ => persists_node _ _ _

theorem persists_xmlLiteral : Persists input limit (xmlLiteral g) (xmlLiteral g') := by
  apply persists_index.bind
  intro start
  apply Persists.bind
  · apply persists_iterate
    intro parts
    apply persists_current.bind
    intro k
    split
    · exact (persists_leaf _).bind fun _ => persists_pure _
    · exact (persists_leaf _).bind fun _ => persists_pure _
    · exact persists_advance.discard.bind fun _ => (persists_expression hg false).bind fun _ =>
        (persists_expect _).bind fun _ => persists_pure _
    · exact (persists_reportExpected _).bind fun _ => persists_pure _
  · exact fun _ => persists_node _ _ _

theorem persists_operand : Persists input limit (operand g) (operand g') := by
  apply persists_current.bind
  intro k
  split
  case h_8 => exact persists_parenthesized hg
  case h_9 => exact persists_arrayLiteral hg
  case h_10 => exact persists_objectLiteral hg
  case h_11 => exact persists_function hg false
  case h_12 => exact persists_xmlLiteral hg
  case h_13 => exact persists_xmlLiteral hg
  case h_14 =>
    split
    · exact persists_leaf _
    · split
      · exact persists_leaf _
      · exact persists_reportUnexpected.bind fun _ => persists_missing _
  all_goals exact persists_leaf _

theorem persists_primary : Persists input limit (primary g) (primary g') := by
  apply (persists_sees _).bind
  intro found
  split
  · exact persists_reportUnexpected.bind fun _ => persists_advance.discard.bind fun _ =>
      persists_operand hg
  · exact persists_operand hg

theorem persists_newExpression : Persists input limit (newExpression g) (newExpression g') := by
  apply Persists.bind
  · exact persists_nested hg.limit_le
      (persists_advance.bind fun _ => (hg.member false).bind fun _ => persists_pure _)
  · rintro ⟨start, callee⟩
    apply (persists_sees _).bind
    intro found
    split
    · exact (persists_arguments hg).bind fun _ => (persists_node _ _ _).bind fun _ =>
        persists_node _ _ _
    · exact persists_node _ _ _

theorem persists_member (calls : Bool) :
    Persists input limit (member g calls) (member g' calls) := by
  apply (persists_sees _).bind
  intro found
  apply Persists.choose (persists_newExpression hg) (persists_primary hg)
  intro first
  apply persists_iterate
  intro object
  apply persists_current.bind
  intro k
  have hselect (tag : Kind) : Persists input limit (do
      discard advance
      return (.inl (← node tag object.start [object, ← selector]) : Concrete ⊕ Concrete)) (do
      discard advance
      return (.inl (← node tag object.start [object, ← selector]) : Concrete ⊕ Concrete)) :=
    persists_advance.discard.bind fun _ => persists_selector.bind fun _ =>
      (persists_node _ _ _).bind fun _ => persists_pure _
  split
  · exact hselect _
  · exact hselect _
  · exact hselect _
  · exact persists_advance.discard.bind fun _ => (persists_expression hg false).bind fun _ =>
      (persists_expect _).bind fun _ => (persists_node _ _ _).bind fun _ => persists_pure _
  · split
    · exact (persists_arguments hg).bind fun _ => (persists_node _ _ _).bind fun _ =>
        persists_pure _
    · exact persists_pure _
  · exact persists_pure _

theorem persists_trailing : Persists input limit (trailing g) (trailing g') := by
  apply (persists_member hg true).bind
  intro inside
  apply persists_current.bind
  intro k
  split
  · apply persists_afterLineBreak.bind
    intro broken
    split
    · exact persists_pure _
    · exact persists_advance.discard.bind fun _ => persists_node _ _ _
  · exact persists_pure _

theorem persists_unary : Persists input limit (unary g) (unary g') := by
  apply persists_current.bind
  intro k
  split
  · apply Persists.bind
    · exact persists_nested hg.limit_le
        (persists_advance.bind fun _ => hg.unary.bind fun _ => persists_pure _)
    · rintro ⟨start, inside⟩
      exact persists_node _ _ _
  · exact persists_trailing hg

theorem persists_binary (floor : Precedence) (noIn : Bool) :
    Persists input limit (binary g floor noIn) (binary g' floor noIn) := by
  apply (persists_unary hg).bind
  intro first
  apply persists_iterate
  intro left
  apply persists_current.bind
  intro operator
  split
  · exact persists_pure _
  · split
    · exact persists_pure _
    · split
      · exact persists_pure _
      · exact persists_advance.discard.bind fun _ => (hg.binary _ _).bind fun _ =>
          (persists_node _ _ _).bind fun _ => persists_pure _

theorem persists_conditional (noIn : Bool) :
    Persists input limit (conditional g noIn) (conditional g' noIn) := by
  apply (persists_binary hg .lowest noIn).bind
  intro condition
  apply (persists_eat _).bind
  intro found
  split
  · exact (hg.assignment false).bind fun _ => (persists_expect _).bind fun _ =>
      (hg.assignment noIn).bind fun _ => persists_node _ _ _
  · exact persists_pure _

theorem persists_assignment (noIn : Bool) :
    Persists input limit (assignment g noIn) (assignment g' noIn) := by
  apply persists_nested hg.limit_le
  apply (persists_sees _).bind
  intro found
  split
  · exact persists_yieldExpression hg noIn
  · apply (persists_conditional hg noIn).bind
    intro target
    apply persists_current.bind
    intro operator
    split
    · exact persists_advance.discard.bind fun _ => (hg.assignment noIn).bind fun _ =>
        persists_node _ _ _
    · exact persists_pure _

/-! Statements. -/

theorem persists_declarations (noIn : Bool) :
    Persists input limit (declarations g noIn) (declarations g' noIn) := by
  apply persists_current.bind
  intro keyword
  apply persists_advance.bind
  intro start
  apply Persists.bind
  · apply persists_separated
    apply persists_identifier.bind
    intro name
    apply (persists_eat _).bind
    intro found
    split
    · exact (hg.assignment noIn).bind fun _ => persists_node _ _ _
    · exact persists_pure _
  · exact fun _ => persists_node _ _ _

theorem persists_constStatement : Persists input limit (constStatement g) (constStatement g') :=
  persists_index.bind fun _ => (persists_declarations hg false).bind fun _ =>
    persists_endStatement.bind fun _ => persists_same fun _ => rfl

theorem persists_condition : Persists input limit (condition g) (condition g') :=
  (persists_expect _).bind fun _ => (persists_expression hg false).bind fun _ =>
    (persists_expect _).bind fun _ => persists_pure _

theorem persists_ifStatement : Persists input limit (ifStatement g) (ifStatement g') := by
  apply persists_advance.bind
  intro start
  apply (persists_condition hg).bind
  intro test
  apply hg.statement.bind
  intro consequence
  apply (persists_eat _).bind
  intro found
  split
  · exact hg.statement.bind fun _ => persists_node _ _ _
  · exact persists_node _ _ _

theorem persists_doStatement : Persists input limit (doStatement g) (doStatement g') :=
  persists_advance.bind fun _ => hg.statement.bind fun _ => (persists_expect _).bind fun _ =>
    (persists_condition hg).bind fun _ => (persists_eat _).discard.bind fun _ => persists_node _ _ _

theorem persists_whileStatement : Persists input limit (whileStatement g) (whileStatement g') :=
  persists_advance.bind fun _ => (persists_condition hg).bind fun _ => hg.statement.bind fun _ =>
    persists_node _ _ _

theorem persists_forIteration (start : Nat) (item : Concrete) :
    Persists input limit (forIteration g start item) (forIteration g' start item) :=
  persists_advance.discard.bind fun _ => (persists_expression hg false).bind fun _ =>
    persists_node _ _ _

theorem persists_optionalClause (before : Kind) :
    Persists input limit (optionalClause g before) (optionalClause g' before) := by
  apply (persists_sees _).bind
  intro found
  split
  · exact persists_index.bind fun _ => persists_pure _
  · exact (persists_expression hg false).bind fun _ => persists_pure _

theorem persists_forSteps (start : Nat) (first : Option Concrete) :
    Persists input limit (forSteps g start first) (forSteps g' start first) := by
  have hrest (initial : Concrete) : Persists input limit (do
      expect .semicolon
      let test ← optionalClause g .semicolon
      expect .semicolon
      let step ← optionalClause g .closeParen
      node .forStep start [initial, test, step]) (do
      expect .semicolon
      let test ← optionalClause g' .semicolon
      expect .semicolon
      let step ← optionalClause g' .closeParen
      node .forStep start [initial, test, step]) :=
    (persists_expect _).bind fun _ => (persists_optionalClause hg _).bind fun _ =>
      (persists_expect _).bind fun _ => (persists_optionalClause hg _).bind fun _ =>
      persists_node _ _ _
  cases first with
  | some t => exact hrest (clause t)
  | none => exact persists_index.bind fun _ => hrest _

theorem persists_forHead : Persists input limit (forHead g) (forHead g') := by
  have hrest (start : Nat) (first : Concrete) : Persists input limit (do
      if ← sees .inKeyword then forIteration g start first
      else forSteps g start (some first)) (do
      if ← sees .inKeyword then forIteration g' start first
      else forSteps g' start (some first)) := by
    apply (persists_sees _).bind
    intro found
    split
    · exact persists_forIteration hg start first
    · exact persists_forSteps hg start first
  apply persists_index.bind
  intro start
  apply (persists_sees _).bind
  intro found
  split
  · exact persists_forSteps hg start none
  · apply (persists_sees _).bind
    intro found
    exact Persists.choose (persists_declarations hg true) (persists_expression hg true)
      (hrest start)

/-- The token that begins the head is kept for a report after the body. -/
theorem persists_forStatement : Persists input limit (forStatement g) (forStatement g') := by
  apply persists_advance.bind
  intro start
  apply (persists_eat _).bind
  intro each
  apply (persists_expect _).bind
  intro _
  apply persists_token?.bind
  intro headToken
  apply (persists_forHead hg).bind
  intro head
  apply (persists_expect _).bind
  intro _
  apply hg.statement.bind
  intro body
  split
  · exact persists_node _ _ _
  · split
    · exact (persists_reportAt _ _ _).bind fun _ => persists_node _ _ _
    · exact persists_node _ _ _

omit hg in
theorem persists_jumpStatement : Persists input limit jumpStatement jumpStatement := by
  apply persists_current.bind
  intro kind
  apply persists_advance.bind
  intro start
  apply persists_current.bind
  intro k
  apply persists_afterLineBreak.bind
  intro broken
  dsimp only
  split
  · exact (persists_leaf _).bind fun _ => persists_endStatement.bind fun _ => persists_node _ _ _
  · exact persists_endStatement.bind fun _ => persists_node _ _ _

theorem persists_returnStatement :
    Persists input limit (returnStatement g) (returnStatement g') := by
  apply persists_advance.bind
  intro start
  apply persists_current.bind
  intro k
  apply persists_afterLineBreak.bind
  intro broken
  dsimp only
  split
  · exact persists_endStatement.bind fun _ => persists_node _ _ _
  · exact (persists_expression hg false).bind fun _ => persists_endStatement.bind fun _ =>
      persists_node _ _ _

theorem persists_throwStatement : Persists input limit (throwStatement g) (throwStatement g') :=
  persists_advance.bind fun _ => (persists_expression hg false).bind fun _ =>
    persists_endStatement.bind fun _ => persists_node _ _ _

theorem persists_withStatement : Persists input limit (withStatement g) (withStatement g') :=
  persists_advance.bind fun _ => (persists_condition hg).bind fun _ => hg.statement.bind fun _ =>
    persists_node _ _ _

omit hg in
theorem persists_atClauseEnd : Persists input limit atClauseEnd atClauseEnd := by
  apply persists_current.bind
  intro k
  split
  · exact persists_pure _
  · exact persists_pure _
  · exact (persists_peek 1).bind fun _ => persists_pure _
  · exact persists_pure _

omit hg in
theorem persists_skipToClauseEnd : Persists input limit skipToClauseEnd skipToClauseEnd := by
  apply persists_iterate
  intro _
  exact persists_atEnd_or persists_atClauseEnd (persists_pure _)
    (persists_advance.discard.bind fun _ => persists_pure _)

theorem persists_caseClause : Persists input limit (caseClause g) (caseClause g') :=
  persists_advance.bind fun _ => (persists_expression hg false).bind fun _ =>
    (persists_expect _).bind fun _ => (persists_statements hg persists_atClauseEnd).bind fun _ =>
    persists_node _ _ _

theorem persists_defaultClause : Persists input limit (defaultClause g) (defaultClause g') :=
  persists_advance.bind fun _ => (persists_expect _).bind fun _ =>
    (persists_statements hg persists_atClauseEnd).bind fun _ => persists_node _ _ _

theorem persists_switchStatement :
    Persists input limit (switchStatement g) (switchStatement g') := by
  apply persists_advance.bind
  intro start
  apply (persists_condition hg).bind
  intro subject
  apply (persists_expect _).bind
  intro _
  apply Persists.bind
  · apply persists_iterate
    intro clauses
    apply persists_atEnd_or (persists_sees _) (persists_pure _)
    apply persists_current.bind
    intro k
    split
    · exact (persists_caseClause hg).bind fun _ => persists_pure _
    · apply persists_atClauseEnd.bind
      intro ends
      split
      · exact (persists_defaultClause hg).bind fun _ => persists_pure _
      · exact persists_reportUnexpected.bind fun _ => persists_skipToClauseEnd.bind fun _ =>
          persists_pure _
  · exact fun _ => (persists_expect _).bind fun _ => persists_node _ _ _

theorem persists_catchClause : Persists input limit (catchClause g) (catchClause g') := by
  apply persists_advance.bind
  intro start
  apply (persists_expect _).bind
  intro _
  apply persists_identifier.bind
  intro exception
  have hrest (filter : List Concrete) : Persists input limit (do
      expect .closeParen
      let body ← block g
      node .catchKeyword start (exception :: filter ++ [body])) (do
      expect .closeParen
      let body ← block g'
      node .catchKeyword start (exception :: filter ++ [body])) :=
    (persists_expect _).bind fun _ => (persists_block hg).bind fun _ => persists_node _ _ _
  apply (persists_sees _).bind
  intro found
  split
  · apply Persists.bind _ fun filter => hrest [filter]
    exact persists_advance.bind fun _ => (persists_expression hg false).bind fun _ =>
      persists_node _ _ _
  · exact hrest []

theorem persists_finallyClause : Persists input limit (finallyClause g) (finallyClause g') :=
  persists_advance.bind fun _ => (persists_block hg).bind fun _ => persists_node _ _ _

theorem persists_tryStatement : Persists input limit (tryStatement g) (tryStatement g') := by
  apply persists_advance.bind
  intro start
  apply (persists_block hg).bind
  intro body
  apply Persists.bind
  · apply persists_iterate
    intro catches
    apply (persists_sees _).bind
    intro found
    split
    · exact (persists_catchClause hg).bind fun _ => persists_pure _
    · exact persists_pure _
  · intro catches
    have hrest (last : List Concrete) : Persists input limit (do
        let clauses := catches ++ last
        if clauses.isEmpty then reportExpected .catchKeyword
        node .tryKeyword start (body :: clauses)) (do
        let clauses := catches ++ last
        if clauses.isEmpty then reportExpected .catchKeyword
        node .tryKeyword start (body :: clauses)) := by
      dsimp only
      split
      · exact (persists_reportExpected _).bind fun _ => persists_node _ _ _
      · exact persists_node _ _ _
    apply (persists_sees _).bind
    intro found
    split
    · exact (persists_finallyClause hg).bind fun last => hrest [last]
    · exact hrest []

omit hg in
theorem persists_requiredLeaf (k : Kind) :
    Persists input limit (requiredLeaf k) (requiredLeaf k) := by
  apply (persists_sees _).bind
  intro found
  split
  · exact (persists_leaf _).bind fun _ => persists_pure _
  · exact (persists_reportExpected _).bind fun _ => persists_pure _

theorem persists_defaultXmlNamespace :
    Persists input limit (defaultXmlNamespace g) (defaultXmlNamespace g') :=
  persists_index.bind fun _ => (persists_leaf _).bind fun _ => (persists_leaf _).bind fun _ =>
    (persists_requiredLeaf _).bind fun _ => (persists_requiredLeaf _).bind fun _ =>
    (persists_expression hg false).bind fun _ => persists_endStatement.bind fun _ =>
    persists_node _ _ _

theorem persists_labelledStatement :
    Persists input limit (labelledStatement g) (labelledStatement g') :=
  persists_index.bind fun _ => (persists_leaf _).bind fun _ =>
    persists_advance.discard.bind fun _ => hg.statement.bind fun _ => persists_node _ _ _

theorem persists_expressionStatement :
    Persists input limit (expressionStatement g) (expressionStatement g') := by
  apply (persists_expression hg false).bind
  intro value
  split
  · exact persists_pure _
  · exact persists_endStatement.bind fun _ => persists_pure _

theorem persists_variableStatement :
    Persists input limit (variableStatement g) (variableStatement g') :=
  (persists_declarations hg false).bind fun _ => persists_endStatement.bind fun _ => persists_pure _

omit hg in
theorem persists_emptyStatement : Persists input limit emptyStatement emptyStatement :=
  persists_advance.bind fun _ => persists_pure _

theorem persists_statement : Persists input limit (statement g) (statement g') := by
  apply persists_nested hg.limit_le
  apply persists_current.bind
  intro k
  split
  · exact persists_block hg
  · exact persists_emptyStatement
  · exact persists_variableStatement hg
  · exact persists_constStatement hg
  · exact persists_function hg true
  · exact persists_ifStatement hg
  · exact persists_doStatement hg
  · exact persists_whileStatement hg
  · exact persists_forStatement hg
  · exact persists_jumpStatement
  · exact persists_jumpStatement
  · exact persists_returnStatement hg
  · exact persists_throwStatement hg
  · exact persists_withStatement hg
  · exact persists_switchStatement hg
  · exact persists_tryStatement hg
  · apply (persists_peek 1).bind
    intro next
    split
    · exact persists_defaultXmlNamespace hg
    · apply (persists_peek 1).bind
      intro next
      split
      · exact persists_labelledStatement hg
      · exact persists_expressionStatement hg

end
end Production

/-- A grammar that may nest more calls gives what one that may nest fewer gives. -/
theorem Grammar.within_persists {input : Input} {limit : Nat} (hlimit : input.limit ≤ limit)
    {n m : Nat} (hle : n ≤ m) : Grammar.Persists input limit (within n) (within m) := by
  induction n generalizing m with
  | zero =>
    exact ⟨hlimit, Production.persists_exhausted, fun _ => Production.persists_exhausted,
      fun _ _ => Production.persists_exhausted, Production.persists_exhausted,
      fun _ => Production.persists_exhausted⟩
  | succ n ih =>
    obtain ⟨m, rfl⟩ := Nat.exists_eq_add_of_le' hle
    have hn : Grammar.Persists input limit (within n) (within (m + n)) := ih (Nat.le_add_left n m)
    exact ⟨hlimit, Production.persists_statement hn, Production.persists_assignment hn,
      Production.persists_binary hn, Production.persists_unary hn, Production.persists_member hn⟩

/-- What is read within a limit is read within every greater one. -/
theorem Production.persists_program {input : Input} {limit : Nat} (hlimit : input.limit ≤ limit) :
    Persists input limit Production.program Production.program := by
  have hle : callAllowance input.limit ≤ callAllowance limit :=
    Nat.mul_le_mul_left 11 (Nat.succ_le_succ hlimit)
  apply persists_index.bind
  intro start
  apply persists_bind_read
  exact (persists_statements (Grammar.within_persists hlimit hle) (persists_pure false)).bind
    fun children => persists_node .script start children

end ScriptTree
