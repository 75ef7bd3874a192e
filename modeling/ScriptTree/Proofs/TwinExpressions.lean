import ScriptTree.Proofs.CallAllowance
import ScriptTree.Proofs.TwinInputs

/-!
Expressions on two inputs with the same significant tokens. One lemma for each rule says that it
reads the same tree on both, provided that the productions inside it do.
-/
namespace ScriptTree

/-- Production `p` builds the same tree on both inputs. -/
def Twins.Mirrors (w : Twins) (p : Production Concrete) : Prop :=
  ∀ {c c' : Cursor}, w.SameCursor c c' → w.Agree w.SameTree c c' p p

/-- The productions of a grammar build the same trees on both inputs. -/
structure Grammar.Mirrored (g : Grammar) (w : Twins) : Prop where
  statement : w.Mirrors g.statement
  assignment : ∀ noIn, w.Mirrors (g.assignment noIn)
  binary : ∀ floor noIn, w.Mirrors (g.binary floor noIn)
  unary : w.Mirrors g.unary
  member : ∀ calls, w.Mirrors (g.member calls)

namespace Twins
open Production
variable {w : Twins} {c c' : Cursor}

/-- The leaf of a token whose kind was looked at. -/
theorem agree_leaf_of_kindAt (kind : Kind) {k : Kind} (h : w.left.kindAt c.pos = k)
    (hk : k ≠ .endOfFile) (hc : w.SameCursor c c') :
    w.Agree w.SameTree c c' (leaf kind) (leaf kind) :=
  agree_leaf kind (Input.sees_of_kindAt h hk).lt_size hc

/-! Lists. -/

/-- A turn of a loop that goes on after a separator. -/
theorem agree_more (k : Kind) {ts ts' : List Concrete} (hts : List.Forall₂ w.SameTree ts ts')
    (hc : w.SameCursor c c') :
    w.Agree (Sum.LiftRel (List.Forall₂ w.SameTree) (List.Forall₂ w.SameTree)) c c'
      (do return if ← eat k then .inl ts else .inr ts.reverse)
      (do return if ← eat k then .inl ts' else .inr ts'.reverse) := by
  refine .bind_eat hc fun found _ _ hc => agree_pure ?_ hc
  split
  · exact .inl hts
  · exact .inr (List.rel_reverse hts)

theorem agree_separated {item : Production Concrete} (hitem : w.Mirrors item)
    (hc : w.SameCursor c c') :
    w.Agree (List.Forall₂ w.SameTree) c c' (separated item) (separated item) := by
  refine agree_iterate (R := List.Forall₂ w.SameTree) .nil hc fun hitems hc => ?_
  exact (hitem hc).bind fun ht hc => agree_more .comma (.cons ht hitems) hc

/-- A list before a closing parenthesis, and what comes after it. -/
theorem agree_listed {item : Production Concrete} (hitem : w.Mirrors item) {γ δ : Type}
    {S : γ → δ → Prop} {rest : List Concrete → Production γ} {rest' : List Concrete → Production δ}
    (hrest : ∀ {ts ts' c c'}, List.Forall₂ w.SameTree ts ts' → w.SameCursor c c' →
      w.Agree S c c' (rest ts) (rest' ts')) (hc : w.SameCursor c c') :
    w.Agree S c c'
      (do
        let items ← if ← sees .closeParen then pure [] else separated item
        expect .closeParen
        rest items)
      (do
        let items ← if ← sees .closeParen then pure [] else separated item
        expect .closeParen
        rest' items) := by
  refine .bind_sees hc fun found _ => ?_
  split
  · exact (agree_expect _ hc).bind fun _ hc => hrest .nil hc
  · refine (agree_separated hitem hc).bind fun hts hc => ?_
    exact (agree_expect _ hc).bind fun _ hc => hrest hts hc

theorem mirrors_identifier : w.Mirrors identifier := by
  intro c c' hc
  refine .bind_current hc fun k hk => ?_
  split
  · rename_i hname
    refine agree_leaf_of_kindAt _ hk ?_ hc
    rintro rfl
    cases hname
  · exact (agree_reportExpected _ hc).bind fun _ hc => agree_missing _ hc

/-- A test of the current token. -/
def Tests (w : Twins) (stops : Production Bool) : Prop :=
  ∀ {c c' : Cursor}, w.SameCursor c c' → w.Agree Eq c c' stops stops

theorem tests_sees (k : Kind) : w.Tests (sees k) := by
  intro c c' hc
  exact .bind_current hc fun _ _ => agree_pure rfl hc

theorem agree_skipping {stops : Production Bool} (hstops : w.Tests stops)
    (hc : w.SameCursor c c') :
    w.Agree (fun _ _ => True) c c' (skipping stops) (skipping stops) := by
  refine agree_iterate (R := fun _ _ => True) trivial hc fun _ hc => ?_
  refine .bind_atEnd hc fun atEnd _ => ?_
  refine (hstops hc).bind ?_
  rintro found _ _ _ rfl hc
  split
  · exact agree_pure (.inr trivial) hc
  · exact (agree_discard (agree_advance hc)).bind fun _ hc => agree_pure (.inl trivial) hc

theorem agree_skipToStatement (hc : w.SameCursor c c') :
    w.Agree (fun _ _ => True) c c' skipToStatement skipToStatement := by
  have hstops : w.Tests (do return startsStatement (← current)) := fun hc =>
    .bind_current hc fun _ _ => agree_pure rfl hc
  exact (agree_discard (agree_advance hc)).bind fun _ hc => agree_skipping hstops hc

section
variable {g : Grammar} (hg : g.Mirrored w)
include hg

/-- A statement reads nothing on both inputs or on none. -/
theorem agree_statements {stops : Production Bool} (hstops : w.Tests stops)
    (hc : w.SameCursor c c') :
    w.Agree (List.Forall₂ w.SameTree) c c' (statements g stops) (statements g stops) := by
  refine agree_iterate (R := List.Forall₂ w.SameTree) .nil hc fun hdone hc => ?_
  refine .bind_atEnd hc fun atEnd _ => ?_
  refine (hstops hc).bind ?_
  rintro found _ _ _ rfl hc
  split
  · exact agree_pure (.inr (List.rel_reverse hdone)) hc
  · refine .bind_get ((hg.statement hc).bind fun ht hc' => .bind_get ?_)
    rw [hc.pos_eq, hc'.pos_eq]
    split
    · exact (agree_skipToStatement hc').bind fun _ hc => agree_pure (.inl hdone) hc
    · exact agree_pure (.inl (.cons ht hdone)) hc'

theorem mirrors_block : w.Mirrors (block g) := by
  intro c c' hc
  refine .bind_index hc fun hstart => ?_
  refine (agree_expect .openBrace hc).bind fun _ hc => ?_
  refine (agree_statements hg (tests_sees .closeBrace) hc).bind fun hts hc => ?_
  refine (agree_expect .closeBrace hc).bind fun _ hc => ?_
  exact agree_node .block hstart hts hc

theorem mirrors_function (isStatement : Bool) : w.Mirrors (function g isStatement) := by
  intro c c' hc
  refine (agree_advance hc).bind fun {start start' _ _} hstart hc => ?_
  -- What follows the name, if there is one.
  have hrest {name name' : List Concrete} (hname : List.Forall₂ w.SameTree name name')
      {c c' : Cursor} (hc : w.SameCursor c c') :=
    Agree.bind_index hc fun hfirst => (agree_expect .openParen hc).bind fun _ hc =>
      agree_listed mirrors_identifier (fun hnames hc =>
        (agree_node .arguments hfirst hnames hc).bind fun hparameters hc =>
          (mirrors_block hg hc).bind fun hbody hc => agree_node .functionKeyword hstart
            (List.rel_append hname (.cons hparameters (.cons hbody .nil))) hc) hc
  refine .bind_current hc fun k hk => ?_
  split
  · rename_i hname
    refine (agree_leaf_of_kindAt .identifier hk ?_ hc).bind fun hname hc => ?_
    · rintro rfl
      cases hname
    · exact hrest (.cons hname .nil) hc
  · split
    · exact (agree_reportExpected _ hc).bind fun _ hc => hrest .nil hc
    · exact hrest .nil hc

/-! Expressions. -/

theorem mirrors_expression (noIn : Bool) : w.Mirrors (expression g noIn) := by
  intro c c' hc
  refine (hg.assignment noIn hc).bind fun hfirst hc => ?_
  refine .bind_eat hc fun found _ _ hc => ?_
  split
  · refine (agree_separated (hg.assignment noIn) hc).bind fun hmore hc => ?_
    exact agree_node .commaExpr hfirst.start (.cons hfirst hmore) hc
  · exact agree_pure hfirst hc

theorem mirrors_yieldExpression (noIn : Bool) : w.Mirrors (yieldExpression g noIn) := by
  intro c c' hc
  refine (agree_advance hc).bind fun hstart hc => ?_
  refine .bind_current hc fun k _ => ?_
  refine .bind_afterLineBreak hc fun broken => ?_
  dsimp only
  split
  · exact agree_node _ hstart .nil hc
  · exact (hg.assignment noIn hc).bind fun hoperand hc =>
      agree_node _ hstart (.cons hoperand .nil) hc

omit hg in
theorem mirrors_selector : w.Mirrors selector := by
  intro c c' hc
  refine .bind_current hc fun k hk => ?_
  split
  · exact agree_leaf_of_kindAt _ hk nofun hc
  · exact agree_leaf_of_kindAt _ hk nofun hc
  · split
    · rename_i hname
      refine agree_leaf_of_kindAt _ hk ?_ hc
      rintro rfl
      cases hname
    · exact (agree_reportSet _ hc).bind fun _ hc => agree_missing _ hc

theorem mirrors_arguments : w.Mirrors (arguments g) := by
  intro c c' hc
  refine .bind_index hc fun hstart => ?_
  refine (agree_expect _ hc).bind fun _ hc => ?_
  exact agree_listed (hg.assignment false) (fun hts hc => agree_node _ hstart hts hc) hc

theorem mirrors_parenthesized : w.Mirrors (parenthesized g) := by
  intro c c' hc
  refine (agree_advance hc).bind fun hstart hc => ?_
  refine (mirrors_expression hg false hc).bind fun hinside hc => ?_
  refine (agree_expect _ hc).bind fun _ hc => ?_
  exact agree_node _ hstart (.cons hinside .nil) hc

theorem mirrors_arrayLiteral : w.Mirrors (arrayLiteral g) := by
  intro c c' hc
  refine (agree_advance hc).bind fun hstart hc => ?_
  refine Agree.bind (R := List.Forall₂ w.SameTree) ?_ fun hitems hc => ?_
  · refine agree_iterate (R := List.Forall₂ w.SameTree) .nil hc fun hitems hc => ?_
    refine .bind_atEnd hc fun atEnd _ => ?_
    refine .bind_sees hc fun closes _ => ?_
    split
    · exact agree_pure (.inr (List.rel_reverse hitems)) hc
    refine .bind_sees hc fun comma _ => ?_
    split
    · refine (agree_advance hc).bind fun hplace hc => ?_
      exact agree_pure (.inl (.cons (.absent hplace _) hitems)) hc
    · refine (hg.assignment false hc).bind fun hvalue hc => ?_
      exact agree_more .comma
        (.cons (.node hvalue.start hvalue.lastToken? (.cons hvalue .nil)) hitems) hc
  · refine (agree_expect _ hc).bind fun _ hc => ?_
    exact agree_node _ hstart hitems hc

omit hg in
theorem mirrors_propertyName : w.Mirrors propertyName := by
  intro c c' hc
  refine .bind_current hc fun k hk => ?_
  split
  · rename_i hliteral
    refine agree_leaf_of_kindAt _ hk ?_ hc
    rintro rfl
    cases hliteral
  · split
    · rename_i hname
      refine agree_leaf_of_kindAt _ hk ?_ hc
      rintro rfl
      cases hname
    · exact (agree_reportSet _ hc).bind fun _ hc => agree_missing _ hc

theorem mirrors_accessor (kind : Kind) : w.Mirrors (accessor g kind) := by
  intro c c' hc
  refine (agree_advance hc).bind fun {start start' _ _} hstart hc => ?_
  refine (mirrors_propertyName hc).bind fun {name name' _ _} hname hc => ?_
  refine (agree_expect _ hc).bind fun _ hc => ?_
  have hrest {argument argument' : List Concrete}
      (hargument : List.Forall₂ w.SameTree argument argument') {c c' : Cursor}
      (hc : w.SameCursor c c') :=
    (agree_expect .closeParen hc).bind fun _ hc => (mirrors_block hg hc).bind fun hbody hc =>
      agree_node kind hstart
        (List.rel_append (List.Forall₂.cons hname hargument) (.cons hbody .nil)) hc
  split
  · exact (mirrors_identifier hc).bind fun hargument hc => hrest (.cons hargument .nil) hc
  · exact hrest .nil hc

theorem mirrors_property : w.Mirrors (property g) := by
  intro c c' hc
  refine .bind_current hc fun k _ => ?_
  refine .bind_peek hc fun next _ => ?_
  split
  · exact mirrors_accessor hg k hc
  · refine .bind_index hc fun hstart => ?_
    refine (mirrors_propertyName hc).bind fun hname hc => ?_
    refine (agree_expect _ hc).bind fun _ hc => ?_
    refine (hg.assignment false hc).bind fun hvalue hc => ?_
    exact agree_node _ hstart (.cons hname (.cons hvalue .nil)) hc

theorem mirrors_objectLiteral : w.Mirrors (objectLiteral g) := by
  intro c c' hc
  refine (agree_advance hc).bind fun hstart hc => ?_
  refine Agree.bind (R := List.Forall₂ w.SameTree) ?_ fun hmembers hc => ?_
  · refine agree_iterate (R := List.Forall₂ w.SameTree) .nil hc fun hmembers hc => ?_
    refine .bind_atEnd hc fun atEnd _ => ?_
    refine .bind_sees hc fun closes _ => ?_
    split
    · exact agree_pure (.inr (List.rel_reverse hmembers)) hc
    · refine (mirrors_property hg hc).bind fun hmember hc => ?_
      exact agree_more .comma (.cons hmember hmembers) hc
  · refine (agree_expect _ hc).bind fun _ hc => ?_
    exact agree_node _ hstart hmembers hc

theorem mirrors_xmlLiteral : w.Mirrors (xmlLiteral g) := by
  intro c c' hc
  refine .bind_index hc fun hstart => ?_
  refine Agree.bind (R := List.Forall₂ w.SameTree) ?_ fun hparts hc => agree_node _ hstart hparts hc
  refine agree_iterate (R := List.Forall₂ w.SameTree) .nil hc fun hparts hc => ?_
  refine .bind_current hc fun k hk => ?_
  split
  · exact (agree_leaf_of_kindAt _ hk nofun hc).bind fun hpart hc =>
      agree_pure (.inl (.cons hpart hparts)) hc
  · exact (agree_leaf_of_kindAt _ hk nofun hc).bind fun hpart hc =>
      agree_pure (.inr (List.rel_reverse (.cons hpart hparts))) hc
  · refine (agree_discard (agree_advance hc)).bind fun _ hc => ?_
    refine (mirrors_expression hg false hc).bind fun hinside hc => ?_
    refine (agree_expect _ hc).bind fun _ hc => ?_
    exact agree_pure (.inl (.cons hinside hparts)) hc
  · exact (agree_reportExpected _ hc).bind fun _ hc =>
      agree_pure (.inr (List.rel_reverse hparts)) hc

theorem mirrors_operand : w.Mirrors (operand g) := by
  intro c c' hc
  refine .bind_current hc fun k hk => ?_
  split
  case h_8 => exact mirrors_parenthesized hg hc
  case h_9 => exact mirrors_arrayLiteral hg hc
  case h_10 => exact mirrors_objectLiteral hg hc
  case h_11 => exact mirrors_function hg false hc
  case h_12 => exact mirrors_xmlLiteral hg hc
  case h_13 => exact mirrors_xmlLiteral hg hc
  case h_14 =>
    split
    · rename_i hliteral
      refine agree_leaf_of_kindAt _ hk ?_ hc
      rintro rfl
      cases hliteral
    · split
      · rename_i hname
        refine agree_leaf_of_kindAt _ hk ?_ hc
        rintro rfl
        cases hname
      · exact (agree_reportUnexpected hc).bind fun _ hc => agree_missing _ hc
  all_goals exact agree_leaf_of_kindAt _ hk nofun hc

theorem mirrors_primary : w.Mirrors (primary g) := by
  intro c c' hc
  refine .bind_sees hc fun found _ => ?_
  split
  · refine (agree_reportUnexpected hc).bind fun _ hc => ?_
    exact (agree_discard (agree_advance hc)).bind fun _ hc => mirrors_operand hg hc
  · exact mirrors_operand hg hc

omit hg in
/-- A token and the operand after it, one level deeper. -/
theorem agree_operator {inside : Production Concrete} (hinside : w.Mirrors inside)
    (hc : w.SameCursor c c') :
    w.Agree (fun x y => w.SamePlace x.1 y.1 ∧ w.SameTree x.2 y.2) c c'
      (nested do
        let start ← advance
        return (start, ← inside))
      (nested do
        let start ← advance
        return (start, ← inside)) := by
  refine agree_nested (fun hc => ?_) hc
  refine (agree_advance hc).bind fun hstart hc => ?_
  exact (hinside hc).bind fun ht hc => agree_pure ⟨hstart, ht⟩ hc

theorem mirrors_newExpression : w.Mirrors (newExpression g) := by
  intro c c' hc
  refine (agree_operator (hg.member false) hc).bind ?_
  rintro ⟨start, callee⟩ ⟨start', callee'⟩ c c' ⟨hstart, hcallee⟩ hc
  refine .bind_sees hc fun found _ => ?_
  split
  · refine (mirrors_arguments hg hc).bind fun harguments hc => ?_
    refine (agree_node _ hcallee.start (.cons hcallee (.cons harguments .nil)) hc).bind
      fun hcall hc => ?_
    exact agree_node _ hstart (.cons hcall .nil) hc
  · exact agree_node _ hstart (.cons hcallee .nil) hc

theorem mirrors_member (calls : Bool) : w.Mirrors (member g calls) := by
  intro c c' hc
  refine .bind_sees hc fun found _ => ?_
  refine Agree.choose (mirrors_newExpression hg hc) (mirrors_primary hg hc) fun hfirst hc => ?_
  refine agree_iterate (R := w.SameTree) hfirst hc fun {object object' c c'} hobject hc => ?_
  have hselect (tag : Kind) : w.Agree (Sum.LiftRel w.SameTree w.SameTree) c c'
      (do
        discard advance
        return .inl (← node tag object.start [object, ← selector]))
      (do
        discard advance
        return .inl (← node tag object'.start [object', ← selector])) := by
    refine (agree_discard (agree_advance hc)).bind fun _ hc => ?_
    refine (mirrors_selector hc).bind fun hselector hc => ?_
    exact (agree_node tag hobject.start (.cons hobject (.cons hselector .nil)) hc).bind
      fun hnode hc => agree_pure (.inl hnode) hc
  refine .bind_current hc fun k _ => ?_
  split
  · exact hselect _
  · exact hselect _
  · exact hselect _
  · refine (agree_discard (agree_advance hc)).bind fun _ hc => ?_
    refine (mirrors_expression hg false hc).bind fun hplace hc => ?_
    refine (agree_expect _ hc).bind fun _ hc => ?_
    exact (agree_node _ hobject.start (.cons hobject (.cons hplace .nil)) hc).bind
      fun hnode hc => agree_pure (.inl hnode) hc
  · split
    · refine (mirrors_arguments hg hc).bind fun harguments hc => ?_
      exact (agree_node _ hobject.start (.cons hobject (.cons harguments .nil)) hc).bind
        fun hnode hc => agree_pure (.inl hnode) hc
    · exact agree_pure (.inr hobject) hc
  · exact agree_pure (.inr hobject) hc

theorem mirrors_trailing : w.Mirrors (trailing g) := by
  intro c c' hc
  refine (mirrors_member hg true hc).bind fun hinside hc => ?_
  refine .bind_current hc fun k _ => ?_
  split
  · refine .bind_afterLineBreak hc fun broken => ?_
    split
    · exact agree_pure hinside hc
    · refine (agree_discard (agree_advance hc)).bind fun _ hc => ?_
      exact agree_node _ hinside.start (.cons hinside .nil) hc
  · exact agree_pure hinside hc

theorem mirrors_unary : w.Mirrors (unary g) := by
  intro c c' hc
  refine .bind_current hc fun k _ => ?_
  split
  · refine (agree_operator hg.unary hc).bind ?_
    rintro ⟨start, inside⟩ ⟨start', inside'⟩ c c' ⟨hstart, hinside⟩ hc
    exact agree_node _ hstart (.cons hinside .nil) hc
  · exact mirrors_trailing hg hc

theorem mirrors_binary (floor : Precedence) (noIn : Bool) : w.Mirrors (binary g floor noIn) := by
  intro c c' hc
  refine (mirrors_unary hg hc).bind fun hfirst hc => ?_
  refine agree_iterate (R := w.SameTree) hfirst hc fun hleft hc => ?_
  refine .bind_current hc fun operator _ => ?_
  split
  · exact agree_pure (.inr hleft) hc
  · split
    · exact agree_pure (.inr hleft) hc
    · split
      · exact agree_pure (.inr hleft) hc
      · refine (agree_discard (agree_advance hc)).bind fun _ hc => ?_
        refine (hg.binary _ noIn hc).bind fun hright hc => ?_
        exact (agree_node _ hleft.start (.cons hleft (.cons hright .nil)) hc).bind
          fun hnode hc => agree_pure (.inl hnode) hc

theorem mirrors_conditional (noIn : Bool) : w.Mirrors (conditional g noIn) := by
  intro c c' hc
  refine (mirrors_binary hg .lowest noIn hc).bind fun hcondition hc => ?_
  refine .bind_eat hc fun found _ _ hc => ?_
  split
  · refine (hg.assignment false hc).bind fun htrue hc => ?_
    refine (agree_expect _ hc).bind fun _ hc => ?_
    refine (hg.assignment noIn hc).bind fun hfalse hc => ?_
    exact agree_node _ hcondition.start (.cons hcondition (.cons htrue (.cons hfalse .nil))) hc
  · exact agree_pure hcondition hc

theorem mirrors_assignment (noIn : Bool) : w.Mirrors (assignment g noIn) := by
  intro c c' hc
  refine agree_nested (fun hc => ?_) hc
  refine .bind_sees hc fun found _ => ?_
  split
  · exact mirrors_yieldExpression hg noIn hc
  · refine (mirrors_conditional hg noIn hc).bind fun htarget hc => ?_
    refine .bind_current hc fun operator _ => ?_
    split
    · refine (agree_discard (agree_advance hc)).bind fun _ hc => ?_
      refine (hg.assignment noIn hc).bind fun hvalue hc => ?_
      exact agree_node _ htarget.start (.cons htarget (.cons hvalue .nil)) hc
    · exact agree_pure htarget hc

end
end Twins
end ScriptTree
