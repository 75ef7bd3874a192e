import ScriptTree.Proofs.GrammarReads
import ScriptTree.Proofs.RootTags

/-! What the productions of expressions build. -/
namespace ScriptTree.Production
variable {input : Input} {c c' : Cursor} {t : Concrete} {ts : List Concrete}

theorem reads_selector (h : Runs selector input c t c') : Read input .selector c c' [t] := by
  unfold selector at h
  replace h := h.bind_current
  split at h
  · rename_i hkind
    exact read_leaf h (sees_kindAt hkind nofun) rfl
  · rename_i hkind
    exact read_leaf h (sees_kindAt hkind nofun) rfl
  · rename_i hattribute hasterisk
    split at h
    · rename_i hkind
      have hsees := sees_of_test (fun k => k == .identifier || k.isKeyword) hkind rfl
      exact read_leaf h hsees (by simp_all [Rule.leafTag?])
    · obtain ⟨_, c₁, hreport, h⟩ := h.bind
      exact read_missing hreport.reportSet h rfl

theorem reads_propertyName (h : Runs propertyName input c t c') :
    Read input .propertyName c c' [t] := by
  unfold propertyName at h
  replace h := h.bind_current
  split at h
  · rename_i hkind
    have hsees := sees_of_test (fun k => k == .stringLiteral || k.isNumericLiteral) hkind rfl
    exact read_leaf h hsees (by simp [Rule.leafTag?, hkind])
  · split at h
    · rename_i hliteral hkind
      have hsees := sees_of_test (fun k => k == .identifier || k.isKeyword) hkind rfl
      exact read_leaf h hsees (by simp [Rule.leafTag?, hliteral, hkind])
    · obtain ⟨_, c₁, hreport, h⟩ := h.bind
      exact read_missing hreport.reportSet h rfl

/-- What a loop that reads on after an operand has to keep: it extends every derivation of the
operand, wherever that began. -/
def Extends (input : Input) (r : Rule) (t : Concrete) (c : Cursor) (u : Concrete) (c' : Cursor) :
    Prop :=
  ∀ c₀, Read input r c₀ c [t] → Read input r c₀ c' [u]

/-- A name after a mark, and what comes after it. -/
theorem extends_access {object : Concrete} {k tag : Kind} {x : Concrete ⊕ Concrete}
    (hsees : input.Sees c.pos k) (htag : Rule.accessTag? k = some tag)
    (h : Runs (do
      discard advance
      return .inl (← node tag object.start [object, ← selector])) input c x c') :
    Carries (Extends input .member) object c x c' := by
  obtain ⟨name, c₁, hname, h⟩ := (h.bind_skip hsees.lt_size).bind
  obtain ⟨e', he', hname⟩ := reads_selector hname
  obtain ⟨_, c₂, hnode, h⟩ := h.bind
  obtain ⟨rfl, rfl⟩ := hnode.node
  obtain ⟨rfl, rfl⟩ := h.pure
  rintro u c'' hrest c₀ ⟨e, he, hd⟩
  rw [Cursor.next_problems] at he'
  exact hrest c₀ ⟨_, by omega, .access hd hsees htag hname⟩

/-- A production one level deeper follows the rule that its body follows. -/
theorem reads_nested {r : Rule} {body : Production Concrete}
    (h : Runs (nested body) input c t c')
    (hbody : ∀ {c c'}, Runs body input c t c' → Read input r c c' [t]) : Read input r c c' [t] := by
  obtain ⟨c₁, c₂, hrun, hpos₁, hproblems₁, hpos₂, hproblems₂⟩ := h.nested
  obtain ⟨e, he, hd⟩ := hbody hrun
  rw [hproblems₁, ← hproblems₂] at he
  rw [hpos₁, ← hpos₂] at hd
  exact ⟨e, he, hd⟩

/-- What comes after the operands of binary operators is no such operator, or one that is looser. -/
theorem ends_binary {g : Grammar} {floor : Precedence} {noIn : Bool}
    (h : Runs (binary g floor noIn) input c t c') : input.EndsOperand floor noIn c'.pos := by
  unfold binary at h
  obtain ⟨_, c₁, -, h⟩ := h.bind
  refine h.iterate (I := fun _ _ _ c' => input.EndsOperand floor noIn c'.pos) ?_
  intro left c x c' h
  replace h := h.bind_current
  split at h
  · rename_i hin
    obtain ⟨rfl, rfl⟩ := h.pure
    exact fun _ _ => .inl (by simpa using hin)
  · split at h
    · rename_i hnone
      obtain ⟨rfl, rfl⟩ := h.pure
      intro precedence hprecedence
      rw [hnone] at hprecedence
      cases hprecedence
    · rename_i hprecedence
      split at h
      · rename_i hlevel
        obtain ⟨rfl, rfl⟩ := h.pure
        intro precedence' hprecedence'
        obtain rfl := Option.some.inj (hprecedence.symm.trans hprecedence')
        exact .inr hlevel
      · obtain ⟨_, c₁, -, h⟩ := h.bind
        obtain ⟨_, c₂, -, h⟩ := h.bind
        obtain ⟨_, c₃, -, h⟩ := h.bind
        obtain ⟨rfl, rfl⟩ := h.pure
        exact fun _ _ hrest => hrest

section
variable {g : Grammar} (hg : g.Sound input)
include hg

theorem reads_expression {noIn : Bool} (h : Runs (expression g noIn) input c t c') :
    Read input .expression c c' [t] := by
  unfold expression at h
  obtain ⟨first, c₁, hfirst, h⟩ := h.bind
  obtain ⟨e, he, hfirst⟩ := hg.assignment hfirst
  obtain ⟨hsees, h⟩ | ⟨-, h⟩ := h.bind_eat nofun
  · obtain ⟨more, c₂, hmore, h⟩ := Runs.bind h
    obtain ⟨e', he', hmore⟩ := reads_separated hg.assignment hmore
    obtain ⟨rfl, rfl⟩ := h.node
    exact ⟨_, by simp only [he', Cursor.next_problems, he, Nat.add_assoc],
      .commas hfirst hsees hmore⟩
  · obtain ⟨rfl, rfl⟩ := Runs.pure h
    exact ⟨_, he, .expressionOf hfirst⟩

theorem reads_yieldExpression {noIn : Bool} (h : Runs (yieldExpression g noIn) input c t c')
    (hsees : input.Sees c.pos .yieldKeyword) : Read input .assignment c c' [t] := by
  unfold yieldExpression at h
  replace h := (h.bind_advance hsees.lt_size).bind_current.bind_afterLineBreak
  dsimp only at h
  split at h
  · obtain ⟨rfl, rfl⟩ := h.bind_pure.node
    exact ⟨_, rfl, .yield hsees .nothing (by simp)⟩
  · rename_i hbare
    obtain ⟨u, c₁, hu, h⟩ := h.bind
    obtain ⟨e, he, hu⟩ := hg.assignment hu
    obtain ⟨rfl, rfl⟩ := h.bind_pure.node
    have hline : input.brokenAt (c.pos + 1) = false := by
      simp only [Bool.or_eq_true, not_or, Bool.not_eq_true] at hbare
      exact hbare.2
    exact ⟨_, he, .yield hsees (.something hu) (fun _ => hline)⟩

theorem reads_arguments (h : Runs (arguments g) input c t c') :
    Read input (.listed .assignment) c c' [t] := by
  obtain ⟨t', c₁, hread, h⟩ := runs_listed pure hg.assignment h
  obtain ⟨rfl, rfl⟩ := h.pure
  exact hread

theorem reads_parenthesized (h : Runs (parenthesized g) input c t c')
    (hsees : input.Sees c.pos .openParen) : Read input .operand c c' [t] := by
  unfold parenthesized at h
  obtain ⟨inside, c₁, hinside, h⟩ := (h.bind_advance hsees.lt_size).bind
  obtain ⟨e, he, hinside⟩ := reads_expression hg hinside
  obtain ⟨_, c₂, hclose, h⟩ := h.bind
  obtain ⟨e', he', hclose⟩ := hclose.expect nofun
  obtain ⟨rfl, rfl⟩ := h.node
  rw [Cursor.next_problems] at he
  exact ⟨_, by omega, .paren hsees hinside hclose⟩

theorem reads_arrayLiteral (h : Runs (arrayLiteral g) input c t c')
    (hsees : input.Sees c.pos .openBracket) : Read input .operand c c' [t] := by
  unfold arrayLiteral at h
  obtain ⟨items, c₁, hitems, h⟩ := (h.bind_advance hsees.lt_size).bind
  have hloop := hitems.iterate (I := Collects input .items) ?_
  · obtain ⟨e, he, hd⟩ := hloop.read
    obtain ⟨_, c₂, hclose, h⟩ := h.bind
    obtain ⟨e', he', hclose⟩ := hclose.expect nofun
    obtain ⟨rfl, rfl⟩ := h.node
    rw [Cursor.next_problems] at he
    exact ⟨_, by omega, .array hsees hd hclose⟩
  · intro done c x c' h
    obtain ⟨h, -⟩ | ⟨-, h⟩ := h.bind_atEnd_or fun _ _ h => h.sees_cursor
    · obtain ⟨rfl, rfl⟩ := h.pure
      exact collects_none .noMoreItems
    · obtain ⟨hcomma, h⟩ | ⟨-, h⟩ := h.bind_sees nofun
      · obtain ⟨rfl, rfl⟩ := (Runs.bind_advance h hcomma.lt_size).pure
        rintro ts c' ⟨more, rfl, e', he', hd'⟩
        exact ⟨_ :: more, by simp, _, he', .hole hcomma hd'⟩
      · obtain ⟨value, c₁, hvalue, h⟩ := Runs.bind h
        obtain ⟨e, he, hd⟩ := hg.assignment hvalue
        obtain ⟨hcomma, h⟩ | ⟨-, h⟩ := Runs.bind_eat h nofun
        · obtain ⟨rfl, rfl⟩ := h.pure
          rintro ts c' ⟨more, rfl, e', he', hd'⟩
          rw [Cursor.next_problems] at he'
          exact ⟨arrayItem value :: more, by simp [arrayItem], _, by omega, .item hd hcomma hd'⟩
        · obtain ⟨rfl, rfl⟩ := h.pure
          exact ⟨[arrayItem value], by simp [arrayItem], e, he, .lastItem hd⟩

theorem reads_getter (h : Runs (accessor g .getKeyword) input c t c')
    (hsees : input.Sees c.pos .getKeyword) : Read input .property c c' [t] := by
  unfold accessor at h
  obtain ⟨name, c₁, hname, h⟩ := (h.bind_advance hsees.lt_size).bind
  obtain ⟨e₁, he₁, hname⟩ := reads_propertyName hname
  obtain ⟨_, c₂, hopen, h⟩ := h.bind
  obtain ⟨e₂, he₂, hopen⟩ := hopen.expect nofun
  obtain ⟨_, c₃, hclose, h⟩ := Runs.bind (Runs.bind_pure h)
  obtain ⟨e₃, he₃, hclose⟩ := hclose.expect nofun
  obtain ⟨body, c₄, hbody, h⟩ := h.bind
  obtain ⟨e₄, he₄, hbody⟩ := reads_block hg hbody
  obtain ⟨rfl, rfl⟩ := h.node
  rw [Cursor.next_problems] at he₁
  exact ⟨_, by omega, .getter hsees hname hopen hclose hbody⟩

theorem reads_setter (h : Runs (accessor g .setKeyword) input c t c')
    (hsees : input.Sees c.pos .setKeyword) : Read input .property c c' [t] := by
  unfold accessor at h
  obtain ⟨name, c₁, hname, h⟩ := (h.bind_advance hsees.lt_size).bind
  obtain ⟨e₁, he₁, hname⟩ := reads_propertyName hname
  obtain ⟨_, c₂, hopen, h⟩ := h.bind
  obtain ⟨e₂, he₂, hopen⟩ := hopen.expect nofun
  obtain ⟨x, c₃, hx, h⟩ := Runs.bind h
  obtain ⟨e₃, he₃, hx⟩ := reads_identifier hx
  obtain ⟨_, c₄, hclose, h⟩ := Runs.bind h.bind_pure
  obtain ⟨e₄, he₄, hclose⟩ := hclose.expect nofun
  obtain ⟨body, c₅, hbody, h⟩ := h.bind
  obtain ⟨e₅, he₅, hbody⟩ := reads_block hg hbody
  obtain ⟨rfl, rfl⟩ := h.node
  rw [Cursor.next_problems] at he₁
  exact ⟨_, by omega, .setter hsees hname hopen hx hclose hbody⟩

theorem reads_property (h : Runs (property g) input c t c') : Read input .property c c' [t] := by
  unfold property at h
  replace h := h.bind_current.bind_peek
  split at h
  · rename_i hkind
    simp only [Bool.and_eq_true, Bool.or_eq_true, beq_iff_eq] at hkind
    rcases hkind.1 with hget | hset
    · rw [hget] at h
      exact reads_getter hg h (sees_kindAt hget nofun)
    · rw [hset] at h
      exact reads_setter hg h (sees_kindAt hset nofun)
  · obtain ⟨name, c₁, hname, h⟩ := h.bind_index.bind
    obtain ⟨e, he, hname⟩ := reads_propertyName hname
    obtain ⟨_, c₂, hcolon, h⟩ := h.bind
    obtain ⟨e', he', hcolon⟩ := hcolon.expect nofun
    obtain ⟨value, c₃, hvalue, h⟩ := h.bind
    obtain ⟨e'', he'', hvalue⟩ := hg.assignment hvalue
    obtain ⟨rfl, rfl⟩ := h.node
    exact ⟨_, by omega, .propertyInit hname hcolon hvalue⟩

theorem reads_objectLiteral (h : Runs (objectLiteral g) input c t c')
    (hsees : input.Sees c.pos .openBrace) : Read input .operand c c' [t] := by
  unfold objectLiteral at h
  obtain ⟨members, c₁, hmembers, h⟩ := (h.bind_advance hsees.lt_size).bind
  have hloop := hmembers.iterate (I := Collects input .members) ?_
  · obtain ⟨e, he, hd⟩ := hloop.read
    obtain ⟨_, c₂, hclose, h⟩ := h.bind
    obtain ⟨e', he', hclose⟩ := hclose.expect nofun
    obtain ⟨rfl, rfl⟩ := h.node
    rw [Cursor.next_problems] at he
    exact ⟨_, by omega, .object hsees hd hclose⟩
  · intro done c x c' h
    obtain ⟨h, -⟩ | ⟨-, h⟩ := h.bind_atEnd_or fun _ _ h => h.sees_cursor
    · obtain ⟨rfl, rfl⟩ := h.pure
      exact collects_none .noMoreMembers
    · obtain ⟨u, c₁, hu, h⟩ := h.bind
      obtain ⟨e, he, hd⟩ := reads_property hg hu
      obtain ⟨hcomma, h⟩ | ⟨-, h⟩ := Runs.bind_eat h nofun
      · obtain ⟨rfl, rfl⟩ := h.pure
        rintro ts c' ⟨more, rfl, e', he', hd'⟩
        rw [Cursor.next_problems] at he'
        exact ⟨u :: more, by simp, _, by omega, .nextMember hd hcomma hd'⟩
      · obtain ⟨rfl, rfl⟩ := h.pure
        exact ⟨[u], by simp, e, he, .lastMember hd⟩

theorem reads_xmlLiteral (h : Runs (xmlLiteral g) input c t c')
    (hsees : input.Sees c.pos .xmlFragment ∨ input.Sees c.pos .xmlFragmentEnd) :
    Read input .operand c c' [t] := by
  unfold xmlLiteral at h
  obtain ⟨parts, c₁, hparts, h⟩ := h.bind_index.bind
  have hloop := hparts.iterate (I := Collects input .xmlParts) ?_
  · obtain ⟨e, he, hd⟩ := hloop.read
    obtain ⟨rfl, rfl⟩ := h.node
    exact ⟨e, he, .xml hsees hd⟩
  · intro done c x c' h
    replace h := h.bind_current
    split at h
    · rename_i hkind
      have htext := sees_kindAt hkind nofun
      obtain ⟨u, c₁, hu, h⟩ := h.bind
      obtain ⟨rfl, rfl⟩ := hu.leaf htext.lt_size
      obtain ⟨rfl, rfl⟩ := h.pure
      rintro ts c' ⟨more, rfl, e', he', hd'⟩
      exact ⟨_ :: more, by simp, _, he', .xmlText htext hd'⟩
    · rename_i hkind
      have hlast := sees_kindAt hkind nofun
      obtain ⟨u, c₁, hu, h⟩ := h.bind
      obtain ⟨rfl, rfl⟩ := hu.leaf hlast.lt_size
      obtain ⟨rfl, rfl⟩ := h.pure
      exact ⟨[_], by simp, 0, rfl, .xmlLast hlast⟩
    · rename_i hkind
      have hopen := sees_kindAt hkind nofun
      obtain ⟨inside, c₁, hinside, h⟩ := (h.bind_skip hopen.lt_size).bind
      obtain ⟨e, he, hinside⟩ := reads_expression hg hinside
      obtain ⟨_, c₂, hclose, h⟩ := h.bind
      obtain ⟨e', he', hclose⟩ := hclose.expect nofun
      obtain ⟨rfl, rfl⟩ := h.pure
      rintro ts c' ⟨more, rfl, e'', he'', hd''⟩
      rw [Cursor.next_problems] at he
      exact ⟨inside :: more, by simp, _, by omega, .xmlEmbedded hopen hinside hclose hd''⟩
    · rename_i hfragment hfragmentEnd _
      have hother {k : Kind} (hk : input.kindAt c.pos ≠ k) : ¬input.Sees c.pos k :=
        fun hsees => hk (Input.kindAt_eq_of_sees hsees)
      obtain ⟨_, c₁, hreport, h⟩ := h.bind
      obtain ⟨hplace, hsize⟩ := hreport.reportExpected
      obtain ⟨rfl, rfl⟩ := h.pure
      exact ⟨[], by simp, 1, hsize,
        hplace.symm ▸ .xmlBroken (hother hfragment) (hother hfragmentEnd)⟩

theorem reads_operand (h : Runs (operand g) input c t c') : Read input .operand c c' [t] := by
  unfold operand at h
  replace h := h.bind_current
  split at h
  iterate 7
    rename_i hkind
    exact read_leaf h (sees_kindAt hkind nofun) rfl
  · rename_i hkind
    exact reads_parenthesized hg h (sees_kindAt hkind nofun)
  · rename_i hkind
    exact reads_arrayLiteral hg h (sees_kindAt hkind nofun)
  · rename_i hkind
    exact reads_objectLiteral hg h (sees_kindAt hkind nofun)
  · rename_i hkind
    obtain ⟨e, he, hd⟩ := reads_function hg h (sees_kindAt hkind nofun)
    exact ⟨e, he, .functionOperand hd⟩
  · rename_i hkind
    exact reads_xmlLiteral hg h (.inl (sees_kindAt hkind nofun))
  · rename_i hkind
    exact reads_xmlLiteral hg h (.inr (sees_kindAt hkind nofun))
  · split at h
    · rename_i hnumber
      exact read_leaf h (sees_of_test Kind.isNumericLiteral hnumber rfl)
        (by simp [Rule.leafTag?, Rule.isAtom_of_isNumericLiteral hnumber])
    · split at h
      · rename_i hname
        have hatom : Rule.isAtom (input.kindAt c.pos) = false := Rule.isAtom_of_isIdentifier hname
        exact read_leaf h (sees_of_test Kind.isIdentifier hname rfl)
          (by simp [Rule.leafTag?, hatom, hname])
      · obtain ⟨_, c₁, hreport, h⟩ := h.bind
        exact read_missing hreport.reportUnexpected h rfl

theorem reads_primary (h : Runs (primary g) input c t c') : Read input .primary c c' [t] := by
  unfold primary at h
  obtain ⟨hsees, h⟩ | ⟨-, h⟩ := h.bind_sees nofun
  · obtain ⟨_, c₁, hreport, h⟩ := Runs.bind h
    obtain ⟨hplace, hsize⟩ := hreport.reportUnexpected
    replace h := h.bind_skip (hplace ▸ hsees.lt_size)
    obtain ⟨e, he, hd⟩ := reads_operand hg h
    rw [Cursor.next_problems] at he
    rw [Cursor.next_pos, hplace] at hd
    exact ⟨_, by omega, .invalid hsees hd⟩
  · obtain ⟨e, he, hd⟩ := reads_operand hg h
    exact ⟨e, he, .primaryOf hd⟩

theorem reads_newExpression (h : Runs (newExpression g) input c t c')
    (hsees : input.Sees c.pos .newKeyword) : Read input .member c c' [t] := by
  unfold newExpression at h
  obtain ⟨⟨start, callee⟩, c₁, hnested, h⟩ := h.bind
  obtain ⟨c₂, c₃, hbody, hpos₂, hproblems₂, hpos₁, hproblems₁⟩ := hnested.nested
  obtain ⟨_, c₄, hcallee, hbody⟩ := (hbody.bind_advance (hpos₂ ▸ hsees.lt_size)).bind
  obtain ⟨hpair, rfl⟩ := hbody.pure
  cases hpair
  obtain ⟨e, he, hd⟩ := hg.member hcallee
  rw [Cursor.next_problems, hproblems₂, ← hproblems₁] at he
  rw [Cursor.next_pos, hpos₂, ← hpos₁] at hd
  rw [hpos₂] at h
  obtain ⟨hopen, h⟩ | ⟨-, h⟩ := Runs.bind_sees h nofun
  · obtain ⟨a, c₅, ha, h⟩ := Runs.bind h
    obtain ⟨e', he', ha⟩ := reads_arguments hg ha
    obtain ⟨_, c₆, hcall, h⟩ := h.bind
    obtain ⟨rfl, rfl⟩ := hcall.node
    obtain ⟨rfl, rfl⟩ := h.node
    exact ⟨_, by omega, .newCall hsees hd hopen ha⟩
  · obtain ⟨rfl, rfl⟩ := (Runs.bind_pure h).node
    exact ⟨e, he, .new hsees hd⟩

theorem reads_member {calls : Bool} (h : Runs (member g calls) input c t c') :
    Read input .member c c' [t] := by
  unfold member at h
  obtain ⟨first, c₁, hfirst, h⟩ : ∃ first c₁, Read input .member c c₁ [first] ∧
      Runs _ input c₁ t c' := by
    obtain ⟨hsees, h⟩ | ⟨-, h⟩ := h.bind_sees nofun
    · obtain ⟨first, c₁, hfirst, h⟩ := Runs.bind h
      exact ⟨first, c₁, reads_newExpression hg hfirst hsees, h⟩
    · obtain ⟨first, c₁, hfirst, h⟩ := Runs.bind h
      obtain ⟨e, he, hd⟩ := reads_primary hg hfirst
      exact ⟨first, c₁, ⟨e, he, .memberOf hd⟩, h⟩
  refine h.iterate (I := Extends input .member) ?_ c hfirst
  intro object c x c' h
  replace h := h.bind_current
  split at h
  · rename_i hkind
    exact extends_access (sees_kindAt hkind nofun) rfl h
  · rename_i hkind
    exact extends_access (sees_kindAt hkind nofun) rfl h
  · rename_i hkind
    exact extends_access (sees_kindAt hkind nofun) rfl h
  · rename_i hkind
    have hsees := sees_kindAt hkind nofun
    obtain ⟨place, c₁, hplace, h⟩ := (h.bind_skip hsees.lt_size).bind
    obtain ⟨e', he', hplace⟩ := reads_expression hg hplace
    obtain ⟨_, c₂, hclose, h⟩ := h.bind
    obtain ⟨e'', he'', hclose⟩ := hclose.expect nofun
    obtain ⟨_, c₃, hnode, h⟩ := h.bind
    obtain ⟨rfl, rfl⟩ := hnode.node
    obtain ⟨rfl, rfl⟩ := h.pure
    rintro u c'' hrest c₀ ⟨e, he, hd⟩
    rw [Cursor.next_problems] at he'
    exact hrest c₀ ⟨_, by omega, .index hd hsees hplace hclose⟩
  · rename_i hkind
    split at h
    · obtain ⟨a, c₁, ha, h⟩ := h.bind
      obtain ⟨e', he', ha⟩ := reads_arguments hg ha
      obtain ⟨_, c₂, hnode, h⟩ := h.bind
      obtain ⟨rfl, rfl⟩ := hnode.node
      obtain ⟨rfl, rfl⟩ := h.pure
      rintro u c'' hrest c₀ ⟨e, he, hd⟩
      exact hrest c₀ ⟨_, by omega, .call hd (sees_kindAt hkind nofun) ha⟩
    · obtain ⟨rfl, rfl⟩ := h.pure
      exact fun c₀ hread => hread
  · obtain ⟨rfl, rfl⟩ := h.pure
    exact fun c₀ hread => hread

theorem reads_trailing (h : Runs (trailing g) input c t c') : Read input .trailing c c' [t] := by
  unfold trailing at h
  obtain ⟨inside, c₁, hinside, h⟩ := h.bind
  obtain ⟨e, he, hd⟩ := reads_member hg hinside
  replace h := h.bind_current
  split at h
  · rename_i tag htag
    have hsees := sees_of_some (f := trailingOperator?) htag rfl
    replace h := h.bind_afterLineBreak
    split at h
    · obtain ⟨rfl, rfl⟩ := h.pure
      exact ⟨e, he, .trailingOf hd⟩
    · rename_i hline
      obtain ⟨rfl, rfl⟩ := (h.bind_skip hsees.lt_size).node
      exact ⟨e, he, .trailed hd hsees htag (Bool.eq_false_iff.mpr hline)⟩
  · obtain ⟨rfl, rfl⟩ := h.pure
    exact ⟨e, he, .trailingOf hd⟩

theorem reads_unary (h : Runs (unary g) input c t c') : Read input .unary c c' [t] := by
  unfold unary at h
  replace h := h.bind_current
  split at h
  · rename_i tag htag
    have hsees := sees_of_some (f := leadingOperator?) htag rfl
    obtain ⟨⟨start, inside⟩, c₁, hnested, h⟩ := h.bind
    obtain ⟨c₂, c₃, hbody, hpos₂, hproblems₂, hpos₁, hproblems₁⟩ := hnested.nested
    obtain ⟨_, c₄, hinside, hbody⟩ := (hbody.bind_advance (hpos₂ ▸ hsees.lt_size)).bind
    obtain ⟨hpair, rfl⟩ := hbody.pure
    cases hpair
    obtain ⟨e, he, hd⟩ := hg.unary hinside
    rw [Cursor.next_problems, hproblems₂, ← hproblems₁] at he
    rw [Cursor.next_pos, hpos₂, ← hpos₁] at hd
    obtain ⟨rfl, rfl⟩ := h.node
    rw [hpos₂]
    exact ⟨e, he, .leading hsees htag hd⟩
  · obtain ⟨e, he, hd⟩ := reads_trailing hg h
    exact ⟨e, he, .unaryOf hd⟩

theorem reads_binary {floor : Precedence} {noIn : Bool}
    (h : Runs (binary g floor noIn) input c t c') : Read input (.binary floor) c c' [t] := by
  unfold binary at h
  obtain ⟨first, c₁, hfirst, h⟩ := h.bind
  obtain ⟨e, he, hd⟩ := reads_unary hg hfirst
  have hfirst : first.kind.isCompound = false := by
    simpa [Rule.admits] using hd.admits first List.mem_cons_self
  -- The operand on the left is followed by no operator that binds more tightly than its own.
  refine h.iterate (I := fun left c u c' =>
    (∀ p, left.kind.binaryPrecedence? = some p → input.EndsOperand p noIn c.pos) →
      Extends input (.binary floor) left c u c') ?_ ?_ c ⟨e, he, .binaryOf hd⟩
  rotate_left
  · intro p hp
    rw [(Kind.isCompound_eq_false_iff.mp hfirst).2.2] at hp
    cases hp
  intro left c x c' h
  replace h := h.bind_current
  split at h
  · obtain ⟨rfl, rfl⟩ := h.pure
    exact fun _ c₀ hread => hread
  · rename_i hin
    split at h
    · obtain ⟨rfl, rfl⟩ := h.pure
      exact fun _ c₀ hread => hread
    · rename_i precedence hprecedence
      split at h
      · obtain ⟨rfl, rfl⟩ := h.pure
        exact fun _ c₀ hread => hread
      · rename_i hlevel
        have hsees := sees_of_some (f := Kind.binaryPrecedence?) hprecedence rfl
        obtain ⟨right, c₁, hright, h⟩ := (h.bind_skip hsees.lt_size).bind
        have hends := hg.binary_ends hright
        obtain ⟨e', he', hright⟩ := hg.binary hright
        obtain ⟨_, c₂, hnode, h⟩ := h.bind
        obtain ⟨rfl, rfl⟩ := hnode.node
        obtain ⟨rfl, rfl⟩ := h.pure
        rintro u c'' hrest hleft c₀ ⟨e, he, hd⟩
        rw [Cursor.next_problems] at he'
        have hbinds : left.BindsAtLeast precedence := by
          intro p hp
          obtain ⟨hno, hkind⟩ | hle := hleft p hp precedence hprecedence
          · exact absurd (by simp [hno, hkind]) hin
          · exact hle
        refine hrest ?_ c₀
          ⟨_, by omega, .operate hd hsees hprecedence (Nat.lt_of_not_le hlevel) hbinds hright⟩
        intro p hp
        obtain rfl := Option.some.inj (hprecedence.symm.trans hp)
        exact hends

theorem reads_conditional {noIn : Bool} (h : Runs (conditional g noIn) input c t c') :
    Read input .conditional c c' [t] := by
  unfold conditional at h
  obtain ⟨condition, c₁, hcondition, h⟩ := h.bind
  obtain ⟨e₁, he₁, hcondition⟩ := reads_binary hg hcondition
  obtain ⟨hsees, h⟩ | ⟨-, h⟩ := h.bind_eat nofun
  · obtain ⟨u, c₂, hu, h⟩ := Runs.bind h
    obtain ⟨e₂, he₂, hu⟩ := hg.assignment hu
    obtain ⟨_, c₃, hcolon, h⟩ := h.bind
    obtain ⟨e₃, he₃, hcolon⟩ := hcolon.expect nofun
    obtain ⟨v, c₄, hv, h⟩ := h.bind
    obtain ⟨e₄, he₄, hv⟩ := hg.assignment hv
    obtain ⟨rfl, rfl⟩ := h.node
    rw [Cursor.next_problems] at he₂
    exact ⟨_, by omega, .choose hcondition hsees hu hcolon hv⟩
  · obtain ⟨rfl, rfl⟩ := Runs.pure h
    exact ⟨e₁, he₁, .conditionalOf hcondition⟩

theorem reads_assignment {noIn : Bool} (h : Runs (assignment g noIn) input c t c') :
    Read input .assignment c c' [t] := by
  unfold assignment at h
  refine reads_nested h ?_
  intro c c' h
  obtain ⟨hsees, h⟩ | ⟨-, h⟩ := h.bind_sees nofun
  · exact reads_yieldExpression hg h hsees
  · obtain ⟨target, c₁, htarget, h⟩ := Runs.bind h
    obtain ⟨e, he, htarget⟩ := reads_conditional hg htarget
    replace h := h.bind_current
    split at h
    · rename_i hoperator
      have hsees := sees_of_test Kind.isAssignmentOperator hoperator rfl
      obtain ⟨value, c₂, hvalue, h⟩ := (h.bind_skip hsees.lt_size).bind
      obtain ⟨e', he', hvalue⟩ := hg.assignment hvalue
      obtain ⟨rfl, rfl⟩ := h.node
      rw [Cursor.next_problems] at he'
      exact ⟨_, by omega, .assign htarget hsees hoperator hvalue⟩
    · obtain ⟨rfl, rfl⟩ := h.pure
      exact ⟨e, he, .assignmentOf htarget⟩

end

end ScriptTree.Production
