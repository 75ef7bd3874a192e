import ScriptTree.Proofs.Settling
import ScriptTree.Proofs.StatementReads
import ScriptTree.Proofs.TreeBounds

/-!
The limit on levels is met before any allowance runs out. On one level the rules nest only through
the precedence of binary operators, so that `callAllowance` leaves room for all calls between two
levels, however long the input is.
-/
namespace ScriptTree
open Production

/-- What the rules on level `d` need to settle: they use the productions of `g` on their own level,
and some of them one level deeper. -/
structure Grammar.Ready (g : Grammar) (input : Input) (d : Nat) : Prop where
  size_le : input.significant.size ≤ input.count
  statement : Steady input d g.statement
  assignment : ∀ noIn, Steady input d (g.assignment noIn)
  unary : d < input.limit → Steady input (d + 1) g.unary
  member : d < input.limit → ∀ calls, Steady input (d + 1) (g.member calls)

/-- Whether a clause of a switch ends before the token of rank `p`. -/
def Input.endsClause (input : Input) (p : Nat) : Bool :=
  match input.kindAt p with
  | .caseKeyword | .closeBrace => true
  | .defaultKeyword => input.kindAt (p + 1) != .xmlKeyword
  | _ => false

theorem Input.kindAt_of_endsClause {input : Input} {p : Nat} (h : input.endsClause p = true) :
    input.kindAt p = .caseKeyword ∨ input.kindAt p = .closeBrace ∨
      input.kindAt p = .defaultKeyword := by
  unfold endsClause at h
  split at h <;> simp_all

namespace Production
variable {input : Input} {d : Nat}

theorem lt_size_of_kindAt {c : Cursor} {k : Kind} (h : input.kindAt c.pos = k)
    (hk : k ≠ .endOfFile) : c.pos < input.significant.size := (sees_kindAt h hk).lt_size

theorem steady_identifier : Steady input d identifier := by
  apply steady_current.bind
  intro k
  split
  · exact steady_leaf _
  · exact (steady_reportExpected _).bind fun _ => steady_missing _

/-- Each item but the last is followed by a comma. -/
theorem steady_separated {item : Production Concrete}
    (hcount : input.significant.size ≤ input.count) (hitem : Steady input d item) :
    Steady input d (separated item) := by
  apply steady_iterate hcount
  intro items c hc
  apply (hitem c hc).bind
  intro t c₁ honward
  exact settles_eat (k := .comma) nofun honward _ _

/-- A loop that reads over tokens until a test holds. -/
def skipping (stops : Production Bool) : Production Unit :=
  iterate () fun _ => do
    if (← atEnd) || (← stops) then return .inr ()
    discard advance
    return .inl ()

theorem steady_skipping {stops : Production Bool} {ends : Nat → Bool}
    (hcount : input.significant.size ≤ input.count) (hstops : Looks input stops ends) :
    Steady input d (skipping stops) := by
  apply steady_iterate hcount
  intro _ c hc
  apply Settles.bind_atEnd_or hstops
  · exact settles_last _
  · intro hpos _
    exact (moves_advance.discard.bind fun _ => steady_pure _).turn hc hpos

theorem ends_of_skipping {stops : Production Bool} {ends : Nat → Bool} {c c' : Cursor} {u : Unit}
    (hstops : Looks input stops ends) (h : Runs (skipping stops) input c u c') :
    input.significant.size ≤ c'.pos ∨ ends c'.pos = true := by
  refine h.iterate (I := fun _ _ _ c' => input.significant.size ≤ c'.pos ∨ ends c'.pos = true) ?_
  intro _ c x c' h
  have hlook (found : Bool) (c₁ : Cursor) (h : Runs stops input c found c₁) :
      ends c.pos = found ∧ c₁ = c := by
    have := (hstops c).symm.trans h
    cases this
    exact ⟨rfl, rfl⟩
  obtain ⟨h, hend⟩ | ⟨-, h⟩ := h.bind_atEnd_or fun found c₁ h => (hlook found c₁ h).2
  · obtain ⟨rfl, rfl⟩ := h.pure
    by_cases hpos : c.pos < input.significant.size
    · exact .inr (hlook true c (hend hpos)).1
    · exact .inl (Nat.le_of_not_lt hpos)
  · obtain ⟨_, c₁, _, h⟩ := h.bind
    obtain ⟨rfl, rfl⟩ := h.pure
    exact fun _ _ => id

theorem moves_skipToStatement (hcount : input.significant.size ≤ input.count) :
    Moves input d skipToStatement := by
  have hstops : Looks input (do return startsStatement (← current))
      (fun p => startsStatement (input.kindAt p)) := fun _ => rfl
  exact moves_advance.discard.bind fun _ => steady_skipping hcount hstops

theorem looks_atClauseEnd : Looks input atClauseEnd input.endsClause := by
  intro c
  unfold atClauseEnd Input.endsClause Runs
  change (match input.kindAt c.pos with
    | .caseKeyword | .closeBrace => pure true
    | .defaultKeyword => do return (← peek 1) != .xmlKeyword
    | _ => pure false : Production Bool) input c = _
  generalize input.kindAt c.pos = k
  split <;> rfl

section
variable {g : Grammar} (hg : g.Ready input d)
include hg

/-- A statement that reads nothing is followed by a token that is read over. -/
theorem steady_statements {stops : Production Bool} {ends : Nat → Bool}
    (hstops : Looks input stops ends) : Steady input d (statements g stops) := by
  apply steady_iterate hg.size_le
  intro done c hc
  apply Settles.bind_atEnd_or hstops
  · exact settles_last _
  · intro hpos _
    apply Settles.bind_get
    apply (hg.statement c hc).bind
    intro t c₁ honward
    apply Settles.bind_get
    split
    · rename_i hsame
      rw [beq_iff_eq] at hsame
      apply Settles.mono (Q := Turn input c₁) _ fun _ _ => .after honward
      apply Moves.turn _ (honward.depth_eq.trans hc) (hsame ▸ hpos)
      exact (moves_skipToStatement hg.size_le).bind fun _ => steady_pure _
    · rename_i hmoved
      rw [beq_iff_eq] at hmoved
      have hle := honward.pos_le
      exact ⟨honward, fun _ => by omega⟩

theorem steady_block : Steady input d (block g) :=
  steady_index.bind fun _ => (steady_expect _).bind fun _ =>
    (steady_statements hg (looks_sees _)).bind fun _ => (steady_expect _).bind fun _ =>
    steady_node _ _ _

/-- A list before a closing parenthesis, and what comes after it. -/
theorem steady_listed {β : Type} {item : Production Concrete} {rest : List Concrete → Production β}
    (hitem : Steady input d item) (hrest : ∀ items, Steady input d (rest items)) :
    Steady input d (do
      let items ← if ← sees .closeParen then pure [] else separated item
      expect .closeParen
      rest items) := by
  apply (steady_sees _).bind
  intro found
  split
  · exact (steady_expect _).bind fun _ => hrest []
  · exact (steady_separated hg.size_le hitem).bind fun items =>
      (steady_expect _).bind fun _ => hrest items

theorem steady_function (isStatement : Bool) : Steady input d (function g isStatement) := by
  apply steady_advance.bind
  intro start
  apply steady_current.bind
  intro k
  have hrest (name : List Concrete) := steady_index.bind fun first =>
    (steady_expect .openParen).bind fun _ => steady_listed hg steady_identifier fun names =>
      (steady_node .arguments first names).bind fun parameters => (steady_block hg).bind fun body =>
        steady_node .functionKeyword start (name ++ [parameters, body])
  split
  · exact (steady_leaf _).bind fun name => hrest [name]
  · split
    · exact (steady_reportExpected _).bind fun _ => hrest []
    · exact hrest []

/-! Expressions. -/

theorem steady_expression (noIn : Bool) : Steady input d (expression g noIn) := by
  apply (hg.assignment noIn).bind
  intro first
  apply (steady_eat _).bind
  intro found
  split
  · exact (steady_separated hg.size_le (hg.assignment noIn)).bind fun _ => steady_node _ _ _
  · exact steady_pure _

theorem steady_yieldExpression (noIn : Bool) : Steady input d (yieldExpression g noIn) := by
  apply steady_advance.bind
  intro start
  apply steady_current.bind
  intro k
  apply steady_afterLineBreak.bind
  intro broken
  dsimp only
  split
  · exact steady_node _ _ _
  · exact (hg.assignment noIn).bind fun _ => steady_node _ _ _

omit hg in
theorem steady_selector : Steady input d selector := by
  apply steady_current.bind
  intro k
  split
  · exact steady_leaf _
  · exact steady_leaf _
  · split
    · exact steady_leaf _
    · exact (steady_reportSet _).bind fun _ => steady_missing _

theorem steady_arguments : Steady input d (arguments g) :=
  steady_index.bind fun _ => (steady_expect _).bind fun _ =>
    steady_listed hg (hg.assignment false) fun _ => steady_node _ _ _

theorem steady_parenthesized : Steady input d (parenthesized g) :=
  steady_advance.bind fun _ => (steady_expression hg _).bind fun _ =>
    (steady_expect _).bind fun _ => steady_node _ _ _

theorem steady_arrayLiteral : Steady input d (arrayLiteral g) := by
  apply steady_advance.bind
  intro start
  apply Steady.bind
  · apply steady_iterate hg.size_le
    intro items c hc
    apply Settles.bind_atEnd_or (looks_sees _)
    · exact settles_last _
    · intro hpos _
      apply Settles.bind_sees (k := .comma) nofun
      · intro _
        exact (moves_advance.bind fun _ => steady_pure _).turn hc hpos
      · intro _
        apply (hg.assignment false c hc).bind
        intro value c₁ honward
        exact settles_eat (k := .comma) nofun honward _ _
  · exact fun _ => (steady_expect _).bind fun _ => steady_node _ _ _

omit hg in
theorem steady_propertyName : Steady input d propertyName := by
  apply steady_current.bind
  intro k
  split
  · exact steady_leaf _
  · split
    · exact steady_leaf _
    · exact (steady_reportSet _).bind fun _ => steady_missing _

theorem steady_accessor (kind : Kind) : Steady input d (accessor g kind) := by
  apply steady_advance.bind
  intro start
  apply steady_propertyName.bind
  intro name
  apply (steady_expect _).bind
  intro _
  have hrest (argument : List Concrete) : Steady input d (do
      expect .closeParen
      let body ← block g
      node kind start (name :: argument ++ [body])) :=
    (steady_expect _).bind fun _ => (steady_block hg).bind fun _ => steady_node _ _ _
  split
  · exact steady_identifier.bind fun argument => hrest [argument]
  · exact hrest []

theorem steady_property : Steady input d (property g) := by
  apply steady_current.bind
  intro k
  apply (steady_peek 1).bind
  intro next
  split
  · exact steady_accessor hg k
  · exact steady_index.bind fun _ => steady_propertyName.bind fun _ =>
      (steady_expect _).bind fun _ => (hg.assignment false).bind fun _ => steady_node _ _ _

theorem steady_objectLiteral : Steady input d (objectLiteral g) := by
  apply steady_advance.bind
  intro start
  apply Steady.bind
  · apply steady_iterate hg.size_le
    intro members c hc
    apply Settles.bind_atEnd_or (looks_sees _)
    · exact settles_last _
    · intro _ _
      apply (steady_property hg c hc).bind
      intro t c₁ honward
      exact settles_eat (k := .comma) nofun honward _ _
  · exact fun _ => (steady_expect _).bind fun _ => steady_node _ _ _

theorem steady_xmlLiteral : Steady input d (xmlLiteral g) := by
  apply steady_index.bind
  intro start
  apply Steady.bind
  · apply steady_iterate hg.size_le
    intro parts c hc
    apply Settles.bind_current
    split
    · rename_i hkind
      exact ((moves_leaf _).bind fun _ => steady_pure _).turn hc (lt_size_of_kindAt hkind nofun)
    · rename_i hkind
      exact ((moves_leaf _).bind fun _ => steady_pure _).turn hc (lt_size_of_kindAt hkind nofun)
    · rename_i hkind
      apply Moves.turn _ hc (lt_size_of_kindAt hkind nofun)
      exact moves_advance.discard.bind fun _ => (steady_expression hg false).bind fun _ =>
        (steady_expect _).bind fun _ => steady_pure _
    · apply (steady_reportExpected .xmlFragmentEnd c hc).bind
      intro _ c₁ honward
      exact ⟨honward, nofun⟩
  · exact fun _ => steady_node _ _ _

theorem steady_operand : Steady input d (operand g) := by
  apply steady_current.bind
  intro k
  split
  case h_8 => exact steady_parenthesized hg
  case h_9 => exact steady_arrayLiteral hg
  case h_10 => exact steady_objectLiteral hg
  case h_11 => exact steady_function hg false
  case h_12 => exact steady_xmlLiteral hg
  case h_13 => exact steady_xmlLiteral hg
  case h_14 =>
    split
    · exact steady_leaf _
    · split
      · exact steady_leaf _
      · exact steady_reportUnexpected.bind fun _ => steady_missing _
  all_goals exact steady_leaf _

theorem steady_primary : Steady input d (primary g) := by
  apply (steady_sees _).bind
  intro found
  split
  · exact steady_reportUnexpected.bind fun _ => steady_advance.discard.bind fun _ =>
      steady_operand hg
  · exact steady_operand hg

theorem steady_newExpression : Steady input d (newExpression g) := by
  apply Steady.bind
  · apply Steady.nested
    intro hlimit
    exact steady_advance.bind fun _ => (hg.member hlimit false).bind fun _ => steady_pure _
  · rintro ⟨start, callee⟩
    apply (steady_sees _).bind
    intro found
    split
    · exact (steady_arguments hg).bind fun _ => (steady_node _ _ _).bind fun _ => steady_node _ _ _
    · exact steady_node _ _ _

/-- The parenthesis of a call is there, so that `expect` reads it. -/
theorem settles_arguments {c : Cursor} (hc : c.depth = d) (hsees : input.Sees c.pos .openParen) :
    Settles (arguments g) input c fun _ c' => Onward input c c' ∧ c.pos < c'.pos := by
  apply Settles.bind_index
  apply (settles_expect hsees).bind
  rintro _ c₁ rfl
  apply ((steady_listed hg (hg.assignment false) fun _ => steady_node _ _ _).from hc
    (.next hsees.lt_size)).mono
  rintro _ c' ⟨honward, hle⟩
  exact ⟨honward, hle⟩

theorem steady_member (calls : Bool) : Steady input d (member g calls) := by
  apply (steady_sees _).bind
  intro found
  apply Steady.choose (steady_newExpression hg) (steady_primary hg)
  intro first
  apply steady_iterate hg.size_le
  intro object c hc
  apply Settles.bind_current
  have hselect (tag : Kind) : Moves input d (do
      discard advance
      return (.inl (← node tag object.start [object, ← selector]) : Concrete ⊕ Concrete)) :=
    moves_advance.discard.bind fun _ => steady_selector.bind fun _ =>
      (steady_node _ _ _).bind fun _ => steady_pure _
  split
  · rename_i hkind
    exact (hselect _).turn hc (lt_size_of_kindAt hkind nofun)
  · rename_i hkind
    exact (hselect _).turn hc (lt_size_of_kindAt hkind nofun)
  · rename_i hkind
    exact (hselect _).turn hc (lt_size_of_kindAt hkind nofun)
  · rename_i hkind
    apply Moves.turn _ hc (lt_size_of_kindAt hkind nofun)
    exact moves_advance.discard.bind fun _ => (steady_expression hg false).bind fun _ =>
      (steady_expect _).bind fun _ => (steady_node _ _ _).bind fun _ => steady_pure _
  · rename_i hkind
    split
    · apply (settles_arguments hg hc (sees_kindAt hkind nofun)).bind
      rintro _ c₁ ⟨honward, hlt⟩
      exact ⟨honward, fun _ => hlt⟩
    · exact settles_last _
  · exact settles_last _

theorem steady_trailing : Steady input d (trailing g) := by
  apply (steady_member hg true).bind
  intro inside
  apply steady_current.bind
  intro k
  split
  · apply steady_afterLineBreak.bind
    intro broken
    split
    · exact steady_pure _
    · exact steady_advance.discard.bind fun _ => steady_node _ _ _
  · exact steady_pure _

theorem steady_unary : Steady input d (unary g) := by
  apply steady_current.bind
  intro k
  split
  · apply Steady.bind
    · apply Steady.nested
      intro hlimit
      exact steady_advance.bind fun _ => (hg.unary hlimit).bind fun _ => steady_pure _
    · rintro ⟨start, inside⟩
      exact steady_node _ _ _
  · exact steady_trailing hg

/-- The operand on the right of an operator is read with its precedence as the new floor. -/
theorem steady_binary (floor : Precedence) (noIn : Bool) (hbinary : ∀ precedence : Precedence,
      floor.level < precedence.level → Steady input d (g.binary precedence noIn)) :
    Steady input d (binary g floor noIn) := by
  apply (steady_unary hg).bind
  intro first
  apply steady_iterate hg.size_le
  intro left c hc
  apply Settles.bind_current
  split
  · exact settles_last _
  · split
    · exact settles_last _
    · rename_i precedence hprecedence
      split
      · exact settles_last _
      · rename_i hlevel
        apply Moves.turn _ hc (sees_of_some hprecedence rfl).lt_size
        exact moves_advance.discard.bind fun _ => (hbinary precedence (by omega)).bind fun _ =>
          (steady_node _ _ _).bind fun _ => steady_pure _

theorem steady_conditional {noIn : Bool} (hbinary : ∀ precedence : Precedence,
      0 < precedence.level → Steady input d (g.binary precedence noIn)) :
    Steady input d (conditional g noIn) := by
  apply (steady_binary hg .lowest noIn hbinary).bind
  intro condition
  apply (steady_eat _).bind
  intro found
  split
  · exact (hg.assignment false).bind fun _ => (steady_expect _).bind fun _ =>
      (hg.assignment noIn).bind fun _ => steady_node _ _ _
  · exact steady_pure _

/-- What stands on the level that an assignment opens. -/
theorem steady_assignment_body {noIn : Bool} (hbinary : ∀ precedence : Precedence,
      0 < precedence.level → Steady input d (g.binary precedence noIn)) : Steady input d (do
      if ← sees .yieldKeyword then yieldExpression g noIn
      else
        let target ← conditional g noIn
        let operator ← current
        if operator.isAssignmentOperator then
          discard advance
          let value ← g.assignment noIn
          node operator target.start [target, value]
        else
          return target) := by
  apply (steady_sees _).bind
  intro found
  split
  · exact steady_yieldExpression hg noIn
  · apply (steady_conditional hg hbinary).bind
    intro target
    apply steady_current.bind
    intro operator
    split
    · exact steady_advance.discard.bind fun _ => (hg.assignment noIn).bind fun _ =>
        steady_node _ _ _
    · exact steady_pure _

/-! Statements. -/

theorem steady_declarations (noIn : Bool) : Steady input d (declarations g noIn) := by
  apply steady_current.bind
  intro keyword
  apply steady_advance.bind
  intro start
  apply Steady.bind
  · apply steady_separated hg.size_le
    apply steady_identifier.bind
    intro name
    apply (steady_eat _).bind
    intro found
    split
    · exact (hg.assignment noIn).bind fun _ => steady_node _ _ _
    · exact steady_pure _
  · exact fun _ => steady_node _ _ _

theorem steady_constStatement : Steady input d (constStatement g) :=
  steady_index.bind fun _ => (steady_declarations hg false).bind fun _ =>
    steady_endStatement.bind fun _ => steady_get.bind fun _ => steady_read.bind fun _ =>
    steady_pure _

theorem steady_condition : Steady input d (condition g) :=
  (steady_expect _).bind fun _ => (steady_expression hg false).bind fun _ =>
    (steady_expect _).bind fun _ => steady_pure _

theorem steady_ifStatement : Steady input d (ifStatement g) := by
  apply steady_advance.bind
  intro start
  apply (steady_condition hg).bind
  intro test
  apply hg.statement.bind
  intro consequence
  apply (steady_eat _).bind
  intro found
  split
  · exact hg.statement.bind fun _ => steady_node _ _ _
  · exact steady_node _ _ _

theorem steady_doStatement : Steady input d (doStatement g) :=
  steady_advance.bind fun _ => hg.statement.bind fun _ => (steady_expect _).bind fun _ =>
    (steady_condition hg).bind fun _ => (steady_eat _).discard.bind fun _ => steady_node _ _ _

theorem steady_whileStatement : Steady input d (whileStatement g) :=
  steady_advance.bind fun _ => (steady_condition hg).bind fun _ => hg.statement.bind fun _ =>
    steady_node _ _ _

theorem steady_forIteration (start : Nat) (item : Concrete) :
    Steady input d (forIteration g start item) :=
  steady_advance.discard.bind fun _ => (steady_expression hg false).bind fun _ => steady_node _ _ _

theorem steady_optionalClause (before : Kind) : Steady input d (optionalClause g before) := by
  apply (steady_sees _).bind
  intro found
  split
  · exact steady_index.bind fun _ => steady_pure _
  · exact (steady_expression hg false).bind fun _ => steady_pure _

theorem steady_forSteps (start : Nat) (first : Option Concrete) :
    Steady input d (forSteps g start first) := by
  have hrest (initial : Concrete) : Steady input d (do
      expect .semicolon
      let test ← optionalClause g .semicolon
      expect .semicolon
      let step ← optionalClause g .closeParen
      node .forStep start [initial, test, step]) :=
    (steady_expect _).bind fun _ => (steady_optionalClause hg _).bind fun _ =>
      (steady_expect _).bind fun _ => (steady_optionalClause hg _).bind fun _ => steady_node _ _ _
  cases first with
  | some t => exact hrest (clause t)
  | none => exact steady_index.bind fun _ => hrest _

theorem steady_forHead : Steady input d (forHead g) := by
  have hrest (start : Nat) (first : Concrete) : Steady input d (do
      if ← sees .inKeyword then forIteration g start first
      else forSteps g start (some first)) := by
    apply (steady_sees _).bind
    intro found
    split
    · exact steady_forIteration hg start first
    · exact steady_forSteps hg start first
  apply steady_index.bind
  intro start
  apply (steady_sees _).bind
  intro found
  split
  · exact steady_forSteps hg start none
  · apply (steady_sees _).bind
    intro found
    exact Steady.choose (steady_declarations hg true) (steady_expression hg true) (hrest start)

theorem steady_forStatement : Steady input d (forStatement g) := by
  apply steady_advance.bind
  intro start
  apply (steady_eat _).bind
  intro each
  apply (steady_expect _).bind
  intro _
  apply steady_token?.bind
  intro headToken
  apply (steady_forHead hg).bind
  intro head
  apply (steady_expect _).bind
  intro _
  apply hg.statement.bind
  intro body
  split
  · exact steady_node _ _ _
  · split
    · exact (steady_reportAt _ _ _).bind fun _ => steady_node _ _ _
    · exact steady_node _ _ _

omit hg in
theorem steady_jumpStatement : Steady input d jumpStatement := by
  apply steady_current.bind
  intro kind
  apply steady_advance.bind
  intro start
  apply steady_current.bind
  intro k
  apply steady_afterLineBreak.bind
  intro broken
  dsimp only
  split
  · exact (steady_leaf _).bind fun _ => steady_endStatement.bind fun _ => steady_node _ _ _
  · exact steady_endStatement.bind fun _ => steady_node _ _ _

theorem steady_returnStatement : Steady input d (returnStatement g) := by
  apply steady_advance.bind
  intro start
  apply steady_current.bind
  intro k
  apply steady_afterLineBreak.bind
  intro broken
  dsimp only
  split
  · exact steady_endStatement.bind fun _ => steady_node _ _ _
  · exact (steady_expression hg false).bind fun _ => steady_endStatement.bind fun _ =>
      steady_node _ _ _

theorem steady_throwStatement : Steady input d (throwStatement g) :=
  steady_advance.bind fun _ => (steady_expression hg false).bind fun _ =>
    steady_endStatement.bind fun _ => steady_node _ _ _

theorem steady_withStatement : Steady input d (withStatement g) :=
  steady_advance.bind fun _ => (steady_condition hg).bind fun _ => hg.statement.bind fun _ =>
    steady_node _ _ _

theorem moves_caseClause : Moves input d (caseClause g) :=
  moves_advance.bind fun _ => (steady_expression hg false).bind fun _ =>
    (steady_expect _).bind fun _ => (steady_statements hg looks_atClauseEnd).bind fun _ =>
    steady_node _ _ _

theorem moves_defaultClause : Moves input d (defaultClause g) :=
  moves_advance.bind fun _ => (steady_expect _).bind fun _ =>
    (steady_statements hg looks_atClauseEnd).bind fun _ => steady_node _ _ _

/-- A token that begins no clause does not end one either, so that it is read over. -/
theorem steady_switchStatement : Steady input d (switchStatement g) := by
  apply steady_advance.bind
  intro start
  apply (steady_condition hg).bind
  intro subject
  apply (steady_expect _).bind
  intro _
  apply Steady.bind
  · apply steady_iterate hg.size_le
    intro clauses c hc
    apply Settles.bind_atEnd_or (looks_sees _)
    · exact settles_last _
    · intro hpos hbrace
      apply Settles.bind_current
      split
      · exact ((moves_caseClause hg).bind fun _ => steady_pure _).turn hc hpos
      · rename_i hcase
        apply looks_atClauseEnd.settles_bind
        have hcase : input.kindAt c.pos ≠ .caseKeyword := by simpa using hcase
        have hbrace : input.kindAt c.pos ≠ .closeBrace := by simpa using hbrace
        split
        · exact ((moves_defaultClause hg).bind fun _ => steady_pure _).turn hc hpos
        · rename_i hdefault
          have hends : input.endsClause c.pos = false := by
            cases hends : input.endsClause c.pos with
            | false => rfl
            | true =>
              rw [hends, Bool.and_true, beq_iff_eq] at hdefault
              exact absurd (Input.kindAt_of_endsClause hends) (by simp [hcase, hbrace, hdefault])
          apply (steady_reportUnexpected c hc).bind
          intro _ c₁ honward
          have hskip := (steady_skipping hg.size_le looks_atClauseEnd).from hc honward
          apply (hskip.and_runs fun _ _ => ends_of_skipping looks_atClauseEnd).bind
          rintro _ c₂ ⟨⟨honward₂, hle⟩, hend⟩
          refine ⟨honward₂, fun _ => Nat.lt_of_le_of_ne honward₂.pos_le fun hsame => ?_⟩
          rw [← hsame, hends] at hend
          exact hend.elim (Nat.not_le_of_lt hpos) nofun
  · exact fun _ => (steady_expect _).bind fun _ => steady_node _ _ _

theorem moves_catchClause : Moves input d (catchClause g) := by
  apply moves_advance.bind
  intro start
  apply (steady_expect _).bind
  intro _
  apply steady_identifier.bind
  intro exception
  have hrest (filter : List Concrete) : Steady input d (do
      expect .closeParen
      let body ← block g
      node .catchKeyword start (exception :: filter ++ [body])) :=
    (steady_expect _).bind fun _ => (steady_block hg).bind fun _ => steady_node _ _ _
  apply (steady_sees _).bind
  intro found
  split
  · apply Steady.bind _ fun filter => hrest [filter]
    exact steady_advance.bind fun _ => (steady_expression hg false).bind fun _ => steady_node _ _ _
  · exact hrest []

theorem steady_finallyClause : Steady input d (finallyClause g) :=
  steady_advance.bind fun _ => (steady_block hg).bind fun _ => steady_node _ _ _

theorem steady_tryStatement : Steady input d (tryStatement g) := by
  apply steady_advance.bind
  intro start
  apply (steady_block hg).bind
  intro body
  apply Steady.bind
  · apply steady_iterate hg.size_le
    intro catches c hc
    apply Settles.bind_sees (k := .catchKeyword) nofun
    · intro hsees
      exact ((moves_catchClause hg).bind fun _ => steady_pure _).turn hc hsees.lt_size
    · intro _
      exact settles_last _
  · intro catches
    have hrest (last : List Concrete) : Steady input d (do
        let clauses := catches ++ last
        if clauses.isEmpty then reportExpected .catchKeyword
        node .tryKeyword start (body :: clauses)) := by
      dsimp only
      split
      · exact (steady_reportExpected _).bind fun _ => steady_node _ _ _
      · exact steady_node _ _ _
    apply (steady_sees _).bind
    intro found
    split
    · exact (steady_finallyClause hg).bind fun last => hrest [last]
    · exact hrest []

omit hg in
theorem steady_requiredLeaf (k : Kind) : Steady input d (requiredLeaf k) := by
  apply (steady_sees _).bind
  intro found
  split
  · exact (steady_leaf _).bind fun _ => steady_pure _
  · exact (steady_reportExpected _).bind fun _ => steady_pure _

theorem steady_defaultXmlNamespace : Steady input d (defaultXmlNamespace g) :=
  steady_index.bind fun _ => (steady_leaf _).bind fun _ => (steady_leaf _).bind fun _ =>
    (steady_requiredLeaf _).bind fun _ => (steady_requiredLeaf _).bind fun _ =>
    (steady_expression hg false).bind fun _ => steady_endStatement.bind fun _ => steady_node _ _ _

theorem steady_labelledStatement : Steady input d (labelledStatement g) :=
  steady_index.bind fun _ => (steady_leaf _).bind fun _ => steady_advance.discard.bind fun _ =>
    hg.statement.bind fun _ => steady_node _ _ _

theorem steady_expressionStatement : Steady input d (expressionStatement g) := by
  apply (steady_expression hg false).bind
  intro value
  split
  · exact steady_pure _
  · exact steady_endStatement.bind fun _ => steady_pure _

theorem steady_variableStatement : Steady input d (variableStatement g) :=
  (steady_declarations hg false).bind fun _ => steady_endStatement.bind fun _ => steady_pure _

omit hg in
theorem steady_emptyStatement : Steady input d emptyStatement :=
  steady_advance.bind fun _ => steady_pure _

end

theorem steady_statement {g : Grammar} (hg : d < input.limit → g.Ready input (d + 1)) :
    Steady input d (statement g) := by
  apply Steady.nested
  intro hlimit
  replace hg := hg hlimit
  apply steady_current.bind
  intro k
  split
  · exact steady_block hg
  · exact steady_emptyStatement
  · exact steady_variableStatement hg
  · exact steady_constStatement hg
  · exact steady_function hg true
  · exact steady_ifStatement hg
  · exact steady_doStatement hg
  · exact steady_whileStatement hg
  · exact steady_forStatement hg
  · exact steady_jumpStatement
  · exact steady_jumpStatement
  · exact steady_returnStatement hg
  · exact steady_throwStatement hg
  · exact steady_withStatement hg
  · exact steady_switchStatement hg
  · exact steady_tryStatement hg
  · apply (steady_peek 1).bind
    intro next
    split
    · exact steady_defaultXmlNamespace hg
    · apply (steady_peek 1).bind
      intro next
      split
      · exact steady_labelledStatement hg
      · exact steady_expressionStatement hg

end Production

/-- How many nested calls the productions of a grammar need on level `d`. A statement and an
assignment go a level deeper at once; the operand of an operator with a higher precedence is read
on the same level. -/
structure Grammar.Suffices (g : Grammar) (input : Input) (n : Nat) : Prop where
  statement : ∀ {d}, 11 * (input.limit - d) < n → Steady input d g.statement
  assignment : ∀ {d} noIn, 11 * (input.limit - d) < n → Steady input d (g.assignment noIn)
  binary : ∀ {d} (floor : Precedence) noIn, 11 * (input.limit - d) + (11 - floor.level) < n →
    Steady input d (g.binary floor noIn)
  unary : ∀ {d}, 11 * (input.limit - d) + 1 < n → Steady input d g.unary
  member : ∀ {d} calls, 11 * (input.limit - d) + 1 < n → Steady input d (g.member calls)

namespace Grammar
variable {g : Grammar} {input : Input} {n d : Nat}

theorem Suffices.ready (hg : g.Suffices input n) (hcount : input.significant.size ≤ input.count)
    (hroom : 11 * (input.limit - d) < n) : g.Ready input d where
  size_le := hcount
  statement := hg.statement hroom
  assignment := fun noIn => hg.assignment noIn hroom
  unary := fun hlimit => hg.unary (by omega)
  member := fun hlimit calls => hg.member calls (by omega)

/-- Each call takes one from the allowance. Going a level deeper gives eleven back. -/
theorem within_suffices (hcount : input.significant.size ≤ input.count) (n : Nat) :
    (within n).Suffices input n := by
  induction n with
  | zero => constructor <;> intros <;> omega
  | succ n ih =>
    constructor
    · intro d hroom
      apply steady_statement
      intro hlimit
      exact ih.ready hcount (by omega)
    · intro d noIn hroom
      apply Steady.nested
      intro hlimit
      apply steady_assignment_body (ih.ready hcount (by omega))
      intro precedence hlevel
      exact ih.binary precedence noIn (by omega)
    · intro d floor noIn hroom
      have hlevel := floor.level_le_ten
      apply steady_binary (ih.ready hcount (by omega))
      intro precedence hlt
      exact ih.binary precedence noIn (by omega)
    · intro d hroom
      exact steady_unary (ih.ready hcount (by omega))
    · intro d calls hroom
      exact steady_member (ih.ready hcount (by omega)) calls

end Grammar

theorem Input.significant_size_le (tokens : Array Token) (lines : LineMap) (limit : Nat) :
    (ofTokens tokens lines limit).significant.size ≤ (ofTokens tokens lines limit).count := by
  unfold ofTokens
  dsimp only
  exact Nat.le_trans Array.size_filter_le (Nat.le_of_eq Array.size_mapIdx)

/-- Statements up to the end of the input settle with every allowance that is large enough. -/
theorem settles_statements {input : Input} (hcount : input.significant.size ≤ input.count) {n : Nat}
    (hroom : 11 * input.limit < n) (c : Cursor) :
    Settles (statements (.within n) (pure false)) input c fun _ c' => Onward input c c' := by
  have hready := (Grammar.within_suffices hcount n).ready (d := c.depth) hcount (by omega)
  have hlooks : Looks input (pure false) fun _ => false := fun _ => rfl
  exact steady_statements hready hlooks c rfl

theorem program_reads_all {input : Input} {c c' : Cursor} {tree : Concrete}
    (h : Runs Production.program input c tree c') : input.significant.size ≤ c'.pos := h.program.1

/-- At the end of the input there are no statements. -/
theorem statements_at_end {input : Input} {c : Cursor} (g : Grammar)
    (h : input.significant.size ≤ c.pos) : Runs (statements g (pure false)) input c [] c := by
  have hatEnd : Runs atEnd input c true c := congrArg (EStateM.Result.ok · c) (decide_eq_true h)
  have hread : Runs read input c input c := rfl
  unfold statements iterate
  apply hread.andThen
  unfold repeating
  apply Runs.andThen (a := .inr [])
  · exact hatEnd.andThen rfl
  · rfl

/-- At the end of the input a script is empty. -/
theorem program_at_end {input : Input} {tokens : Array Token} (hover : input.Over tokens)
    {c : Cursor} (h : input.significant.size ≤ c.pos) :
    c.program input = (.ok (.absent .script tokens.size), c) := by
  have hindex : input.indexAt c.pos = input.count := by
    rw [Input.indexAt, Array.getElem?_eq_none h]
  have hnode : input.nodeAt c.pos .script input.count [] = .absent .script input.count := by
    have hlast : (input.lastBefore c.pos).filter (input.count ≤ ·) = none := by
      rw [Option.filter_eq_none_iff]
      intro l hl
      have hlt : l < input.afterAt c.pos := Input.lastBefore_lt_afterAt hl
      have hle := hover.afterAt_le_indexAt c.pos
      simp only [decide_eq_true_eq]
      omega
    rw [Input.nodeAt, hlast]
    rfl
  have hrun : Runs Production.program input c (input.nodeAt c.pos .script input.count []) c := by
    rw [← hindex]
    unfold Production.program
    have hstart : Runs index input c (input.indexAt c.pos) c := rfl
    have hread : Runs read input c input c := rfl
    exact hstart.andThen (hread.andThen ((statements_at_end _ h).andThen rfl))
  unfold Runs at hrun
  rw [Cursor.program, hrun, hnode, hover.count_eq]

/-- A script settles: neither the calls that the limit on levels leaves room for nor the steps of a
loop run out. A script that is read leaves no significant token, so that another one read after it
is empty and has nothing to report. -/
theorem program_settles (tokens : Array Token) (lines : LineMap) (limit : Nat) (c : Cursor) :
    let input := Input.ofTokens tokens lines limit
    (∀ n, 11 * (limit + 1) ≤ n → ∀ c',
      statements (.within n) (pure false) input c ≠ .error .exhausted c') ∧
    (∀ c', c.program input ≠ (.error .exhausted, c')) ∧
    ∀ tree c', c.program input = (.ok tree, c') →
      input.significant.size ≤ c'.pos ∧
        c'.program input = (.ok (.absent .script tokens.size), c') := by
  intro input
  have hcount : input.significant.size ≤ input.count := Input.significant_size_le tokens lines limit
  have hallowed {n : Nat} (hn : 11 * (limit + 1) ≤ n) :
      Settles (statements (.within n) (pure false)) input c fun _ c' => Onward input c c' :=
    settles_statements hcount (by simp only [input, Input.ofTokens]; omega) c
  refine ⟨fun n hn c' => (hallowed hn).not_exhausted, ?_, ?_⟩
  · intro c' h
    have hprogram : Settles Production.program input c fun _ _ => True := by
      unfold Production.program
      apply Settles.bind_index
      apply Settles.bind_read
      apply (hallowed (n := callAllowance limit) (Nat.le_refl _)).bind
      intro _ _ _
      trivial
    unfold Cursor.program at h
    split at h
    · cases h
    · rename_i hrun
      cases h
      exact hprogram.not_exhausted hrun
  · intro tree c' h
    have hall := program_reads_all (program_eq_ok h)
    exact ⟨hall, program_at_end (Input.ofTokens_over tokens lines limit) hall⟩

/-- An empty statement needs one level, and after it nothing is left. -/
theorem program_settles_semicolon :
    let input := Input.ofTokens #[⟨.semicolon, ";", 1, 0, 0, false, false⟩] (.ofText ";") 1
    ∃ tree c', Cursor.initial.program input = (.ok tree, c') ∧ tree.children.length = 1 ∧
      c'.program input = (.ok (.absent .script 1), c') := by
  intro input
  have hrun : Cursor.initial.program input = (.ok (.inner .script 0 (some 0)
      [.inner .emptyStatement 0 (some 0) []]), ⟨1, 0, #[]⟩) := rfl
  exact ⟨_, _, hrun, rfl, ((program_settles _ _ _ _).2.2 _ _ hrun).2⟩

end ScriptTree
