import ScriptTree.Proofs.Derivation

/-!
What the basic productions do. `Runs p input c a c'` says that production `p`, begun at cursor `c`,
gives `a` and leaves cursor `c'`. A lemma on `p` alone tells the end of such a run; a lemma named
`bind_` takes `p` off the front of a longer one.
-/
namespace ScriptTree

/-- The cursor after one more token. -/
def Cursor.next (c : Cursor) : Cursor := { c with pos := c.pos + 1 }

@[simp] theorem Cursor.next_pos (c : Cursor) : c.next.pos = c.pos + 1 := rfl

@[simp] theorem Cursor.next_problems (c : Cursor) : c.next.problems = c.problems := rfl

namespace Production
variable {α β : Type} {input : Input} {c c' : Cursor} {b : β}

/-- Production `p` ends without halting. -/
def Runs (p : Production α) (input : Input) (c : Cursor) (a : α) (c' : Cursor) : Prop :=
  p input c = .ok a c'

/-- A token, or the end of the input, as messages show it. -/
def shownText : Option Placed → String
  | some { token, .. } => token.quoted
  | none => "<EOF>"

theorem diagnosticAt_code (lines : LineMap) (place : Option Placed) (m : Message)
    (args : List String) : (diagnosticAt lines place m args).code = m.code := by
  cases place <;> rfl

theorem diagnosticAt_text (lines : LineMap) (place : Option Placed) (m : Message)
    (args : List String) : (diagnosticAt lines place m args).text = m.fill args := by
  cases place <;> rfl

/-- The same place, after `e` more reports. -/
def Reported (c c' : Cursor) (e : Nat) : Prop :=
  c'.pos = c.pos ∧ c'.problems.size = c.problems.size + e

theorem Runs.bind {p : Production α} {f : α → Production β} (h : Runs (p >>= f) input c b c') :
    ∃ a c₁, Runs p input c a c₁ ∧ Runs (f a) input c₁ b c' := by
  unfold Runs at h
  change (p input >>= fun a => f a input) c = _ at h
  simp only [Bind.bind, EStateM.bind] at h
  split at h
  · rename_i a c₁ hp
    exact ⟨a, c₁, hp, h⟩
  · cases h

theorem Runs.pure {a : β} (h : Runs (pure a) input c b c') : b = a ∧ c = c' := by
  cases h
  exact ⟨rfl, rfl⟩

theorem Runs.bind_pure {a : α} {f : α → Production β} (h : Runs (Pure.pure a >>= f) input c b c') :
    Runs (f a) input c b c' := h

theorem not_runs_throw {halt : Halt} : ¬Runs (throw halt) input c b c' := by
  intro h
  cases h

theorem Runs.bind_get {f : Cursor → Production β} (h : Runs (get >>= f) input c b c') :
    Runs (f c) input c b c' := h

theorem Runs.bind_read {f : Input → Production β} (h : Runs (read >>= f) input c b c') :
    Runs (f input) input c b c' := h

theorem Runs.bind_current {f : Kind → Production β} (h : Runs (current >>= f) input c b c') :
    Runs (f (input.kindAt c.pos)) input c b c' := h

theorem Runs.bind_peek {f : Kind → Production β} {ahead : Nat}
    (h : Runs (peek ahead >>= f) input c b c') :
    Runs (f (input.kindAt (c.pos + ahead))) input c b c' := h

theorem Runs.bind_index {f : Nat → Production β} (h : Runs (index >>= f) input c b c') :
    Runs (f (input.indexAt c.pos)) input c b c' := h

theorem Runs.bind_token? {f : Option Placed → Production β}
    (h : Runs (token? >>= f) input c b c') : Runs (f input.significant[c.pos]?) input c b c' := h

theorem Runs.bind_afterLineBreak {f : Bool → Production β}
    (h : Runs (afterLineBreak >>= f) input c b c') :
    Runs (f (input.brokenAt c.pos)) input c b c' := h

theorem Runs.bind_shown {f : String → Production β} (h : Runs (shown >>= f) input c b c') :
    ∃ text, Runs (f text) input c b c' := ⟨_, h⟩

theorem Runs.bind_sees {f : Bool → Production β} {k : Kind} (h : Runs (sees k >>= f) input c b c')
    (hk : k ≠ .endOfFile) :
    (input.Sees c.pos k ∧ Runs (f true) input c b c') ∨
      (¬input.Sees c.pos k ∧ Runs (f false) input c b c') := by
  change Runs (f (input.kindAt c.pos == k)) input c b c' at h
  by_cases hkind : input.kindAt c.pos = k
  · rw [hkind, beq_self_eq_true] at h
    exact .inl ⟨Input.sees_of_kindAt hkind hk, h⟩
  · rw [beq_false_of_ne hkind] at h
    exact .inr ⟨fun hsees => hkind (Input.kindAt_eq_of_sees hsees), h⟩

theorem Runs.bind_atEnd {f : Bool → Production β} (h : Runs (atEnd >>= f) input c b c') :
    (input.significant.size ≤ c.pos ∧ Runs (f true) input c b c') ∨
      (c.pos < input.significant.size ∧ Runs (f false) input c b c') := by
  change Runs (f (decide (input.significant.size ≤ c.pos))) input c b c' at h
  by_cases hpos : input.significant.size ≤ c.pos
  · rw [decide_eq_true hpos] at h
    exact .inl ⟨hpos, h⟩
  · rw [decide_eq_false hpos] at h
    exact .inr ⟨Nat.lt_of_not_le hpos, h⟩

/-- A token that is there is read. -/
theorem Runs.advance {i : Nat} (h : Runs advance input c i c')
    (hpos : c.pos < input.significant.size) : i = input.indexAt c.pos ∧ c' = c.next := by
  unfold Production.advance at h
  obtain ⟨hend, h⟩ | ⟨-, h⟩ := h.bind_index.bind_atEnd
  · exact absurd hpos (Nat.not_lt_of_le hend)
  · cases h
    exact ⟨rfl, rfl⟩

/-- Whether or not a token is there, nothing is reported and the input is not left. -/
theorem Runs.advance_le {i : Nat} (h : Runs Production.advance input c i c')
    (hpos : c.pos ≤ input.significant.size) :
    c.pos ≤ c'.pos ∧ c'.pos ≤ input.significant.size ∧
      c'.problems.size = c.problems.size := by
  unfold Production.advance at h
  obtain ⟨-, h⟩ | ⟨hlt, h⟩ := h.bind_index.bind_atEnd
  · cases h
    exact ⟨Nat.le_refl _, hpos, rfl⟩
  · cases h
    exact ⟨Nat.le_succ _, hlt, rfl⟩

theorem Runs.discard {p : Production α} {u : Unit} (h : Runs (discard p) input c u c') :
    ∃ a, Runs p input c a c' := by
  obtain ⟨a, _, hp, h⟩ := Runs.bind h
  obtain ⟨-, rfl⟩ := h.pure
  exact ⟨a, hp⟩

theorem Runs.bind_advance {f : Nat → Production β}
    (h : Runs (Production.advance >>= f) input c b c')
    (hpos : c.pos < input.significant.size) :
    Runs (f (input.indexAt c.pos)) input c.next b c' := by
  obtain ⟨_, _, hadvance, h⟩ := h.bind
  obtain ⟨rfl, rfl⟩ := hadvance.advance hpos
  exact h

theorem Runs.bind_skip {f : Unit → Production β}
    (h : Runs (Functor.discard Production.advance >>= f) input c b c')
    (hpos : c.pos < input.significant.size) : Runs (f ()) input c.next b c' := by
  obtain ⟨_, _, hadvance, h⟩ := h.bind
  obtain ⟨_, hadvance⟩ := hadvance.discard
  obtain ⟨-, rfl⟩ := hadvance.advance hpos
  exact h

theorem Runs.eat_cases {found : Bool} {k : Kind} (h : Runs (eat k) input c found c')
    (hk : k ≠ .endOfFile) :
    (input.Sees c.pos k ∧ found = true ∧ c' = c.next) ∨
      (¬input.Sees c.pos k ∧ found = false ∧ c' = c) := by
  unfold eat at h
  obtain ⟨hsees, h⟩ | ⟨hsees, h⟩ := h.bind_sees hk
  · obtain ⟨rfl, rfl⟩ := (h.bind_skip hsees.lt_size).pure
    exact .inl ⟨hsees, rfl, rfl⟩
  · obtain ⟨rfl, rfl⟩ := h.pure
    exact .inr ⟨hsees, rfl, rfl⟩

theorem Runs.bind_eat {f : Bool → Production β} {k : Kind} (h : Runs (eat k >>= f) input c b c')
    (hk : k ≠ .endOfFile) :
    (input.Sees c.pos k ∧ Runs (f true) input c.next b c') ∨
      (¬input.Sees c.pos k ∧ Runs (f false) input c b c') := by
  obtain ⟨found, c₁, heat, hrest⟩ := h.bind
  obtain ⟨hsees, rfl, rfl⟩ | ⟨hsees, rfl, rfl⟩ := heat.eat_cases hk
  · exact .inl ⟨hsees, hrest⟩
  · exact .inr ⟨hsees, hrest⟩

theorem Runs.reportAt {place : Option Placed} {m : Message} {args : List String} {u : Unit}
    (h : Runs (reportAt place m args) input c u c') : Reported c c' 1 := by
  cases h
  exact ⟨rfl, Array.size_push _⟩

theorem Runs.report {m : Message} {args : List String} {u : Unit}
    (h : Runs (report m args) input c u c') : Reported c c' 1 := by
  unfold Production.report at h
  exact h.bind_token?.bind_read.reportAt

theorem Runs.reportExpected {k : Kind} {u : Unit} (h : Runs (reportExpected k) input c u c') :
    Reported c c' 1 := by
  unfold Production.reportExpected at h
  obtain ⟨-, h⟩ | ⟨-, h⟩ := h.bind_atEnd
  · exact h.report
  · obtain ⟨_, h⟩ := Runs.bind_shown h
    exact h.report

theorem Runs.reportUnexpected {u : Unit} (h : Runs reportUnexpected input c u c') :
    Reported c c' 1 := by
  unfold Production.reportUnexpected at h
  obtain ⟨-, h⟩ | ⟨-, h⟩ := h.bind_atEnd
  · exact h.report
  · obtain ⟨_, h⟩ := Runs.bind_shown h
    exact h.report

theorem Runs.reportSet {set : String} {u : Unit} (h : Runs (reportSet set) input c u c') :
    Reported c c' 1 := by
  unfold Production.reportSet at h
  obtain ⟨_, h⟩ := h.bind_shown
  exact h.report

theorem Runs.expect {k : Kind} {u : Unit} (h : Runs (expect k) input c u c')
    (hk : k ≠ .endOfFile) :
    ∃ e, c'.problems.size = c.problems.size + e ∧ Expects input k c.pos c'.pos e := by
  unfold Production.expect at h
  obtain ⟨hsees, h⟩ | ⟨-, h⟩ := h.bind_sees hk
  · obtain ⟨_, h⟩ := Runs.discard h
    obtain ⟨-, rfl⟩ := h.advance hsees.lt_size
    exact ⟨0, rfl, .here hsees⟩
  · rw [if_neg Bool.false_ne_true] at h
    obtain ⟨-, h⟩ | ⟨hpos, h⟩ := h.bind_atEnd
    · obtain ⟨hplace, hsize⟩ := h.bind_peek.reportExpected
      exact ⟨1, hsize, hplace ▸ .missing⟩
    · replace h := h.bind_peek
      split at h
      · rename_i hkind
        have hsees : input.Sees (c.pos + 1) k :=
          Input.sees_of_kindAt (by simpa using hkind) hk
        obtain ⟨_, h⟩ := h.bind_shown
        obtain ⟨_, c₁, hreport, h⟩ := h.bind
        obtain ⟨hplace, hsize⟩ := hreport.report
        replace h := h.bind_skip (hplace ▸ hpos)
        obtain ⟨_, h⟩ := Runs.discard h
        obtain ⟨-, rfl⟩ := h.advance (by simpa [hplace] using hsees.lt_size)
        refine ⟨1, hsize, ?_⟩
        have hend : c₁.next.next.pos = c.pos + 2 := by simp [hplace]
        rw [hend]
        exact .afterOne hsees
      · obtain ⟨hplace, hsize⟩ := h.reportExpected
        exact ⟨1, hsize, hplace ▸ .missing⟩

theorem Runs.endStatement {u : Unit} (h : Runs endStatement input c u c') :
    ∃ e, c'.problems.size = c.problems.size + e ∧ EndsStatement input c.pos c'.pos e := by
  unfold Production.endStatement at h
  obtain ⟨hsees, h⟩ | ⟨hsees, h⟩ := h.bind_eat nofun
  · obtain ⟨-, rfl⟩ := Runs.pure h
    exact ⟨0, rfl, .semicolon hsees⟩
  · rw [if_neg Bool.false_ne_true] at h
    have omitted (hplace : input.significant.size ≤ c.pos ∨ input.Sees c.pos .closeBrace ∨
        input.brokenAt c.pos = true) (h : c = c') :
        ∃ e, c'.problems.size = c.problems.size + e ∧ EndsStatement input c.pos c'.pos e := by
      subst h
      exact ⟨0, rfl, .omitted hsees hplace⟩
    obtain ⟨hend, h⟩ | ⟨-, h⟩ := h.bind_atEnd
    · obtain ⟨-, h⟩ | ⟨-, h⟩ := h.bind_sees nofun
      · exact omitted (.inl hend) (Runs.pure h.bind_afterLineBreak).2
      · exact omitted (.inl hend) (Runs.pure h.bind_afterLineBreak).2
    · obtain ⟨hbrace, h⟩ | ⟨-, h⟩ := h.bind_sees nofun
      · exact omitted (.inr (.inl hbrace)) (Runs.pure h.bind_afterLineBreak).2
      · replace h := h.bind_afterLineBreak
        split at h
        · rename_i hbroken
          exact omitted (.inr (.inr (by simpa using hbroken))) (Runs.pure h).2
        · obtain ⟨_, h⟩ := h.bind_shown
          obtain ⟨hplace, hsize⟩ := h.report
          exact ⟨1, hsize, hplace.symm ▸ .missing hsees⟩

theorem Runs.node {kind : Kind} {start : Nat} {children : List Concrete} {t : Concrete}
    (h : Runs (node kind start children) input c t c') :
    t = input.nodeAt c.pos kind start children ∧ c = c' := by
  cases h
  exact ⟨rfl, rfl⟩

theorem Runs.leaf {kind : Kind} {t : Concrete} (h : Runs (leaf kind) input c t c')
    (hpos : c.pos < input.significant.size) : t = input.leafAt c.pos kind ∧ c' = c.next := by
  unfold Production.leaf at h
  obtain ⟨rfl, rfl⟩ := (Runs.bind_advance h.bind_token? hpos).pure
  refine ⟨?_, rfl⟩
  rw [Input.leafAt, Input.textAt, Array.getElem?_eq_getElem hpos]

theorem Runs.missing {kind : Kind} {t : Concrete} (h : Runs (missing kind) input c t c') :
    t = input.missingAt c.pos kind ∧ c = c' := by
  cases h
  exact ⟨rfl, rfl⟩

/-- Going a level deeper and back changes neither what is read nor what is reported. -/
theorem Runs.nested {body : Production β} (h : Runs (nested body) input c b c') :
    ∃ c₁ c₂, Runs body input c₁ b c₂ ∧ c₁.pos = c.pos ∧ c₁.problems = c.problems ∧
      c'.pos = c₂.pos ∧ c'.problems = c₂.problems := by
  unfold Production.nested at h
  obtain ⟨_, c₁, henter, h⟩ := h.bind
  unfold enter at henter
  obtain ⟨_, c₂, hdeeper, henter⟩ := henter.bind
  cases hdeeper
  replace henter := Runs.bind_get henter.bind_read
  split at henter
  · obtain ⟨_, _, _, henter⟩ := henter.bind
    exact absurd henter.bind_index not_runs_throw
  · obtain ⟨-, rfl⟩ := henter.pure
    unfold Runs leaving at h
    split at h
    · rename_i c₂ hbody
      cases h
      exact ⟨_, c₂, hbody, rfl, rfl, rfl, rfl⟩
    · cases h

/-- What a step of a loop has to show for `I` to relate the beginning of the loop to its end: the
last step gives it, and the others carry it back over the tokens they read. -/
def Carries (I : α → Cursor → β → Cursor → Prop) (a : α) (c : Cursor) : α ⊕ β → Cursor → Prop
  | .inl a', c₁ => ∀ b c', I a' c₁ b c' → I a c b c'
  | .inr b, c' => I a c b c'

theorem Runs.repeating {I : α → Cursor → β → Cursor → Prop} {step : α → Production (α ⊕ β)}
    (hstep : ∀ a c x c', Runs (step a) input c x c' → Carries I a c x c') {n : Nat} {a : α}
    (h : Runs (repeating step n a) input c b c') : I a c b c' := by
  induction n generalizing a c with
  | zero => exact absurd h not_runs_throw
  | succ n ih =>
    unfold Production.repeating at h
    obtain ⟨x, c₁, hx, h⟩ := h.bind
    have hcarries := hstep a c x c₁ hx
    cases x with
    | inl a' => exact hcarries b c' (ih h)
    | inr b' =>
      obtain ⟨rfl, rfl⟩ := Runs.pure h
      exact hcarries

theorem Runs.iterate {I : α → Cursor → β → Cursor → Prop} {step : α → Production (α ⊕ β)} {a : α}
    (h : Runs (iterate a step) input c b c')
    (hstep : ∀ a c x c', Runs (step a) input c x c' → Carries I a c x c') : I a c b c' :=
  Runs.repeating hstep h.bind_read

/-- A test that begins the steps of many loops. -/
theorem Runs.bind_atEnd_or {stops : Production Bool} {x y : Production β}
    (h : Runs (do if (← atEnd) || (← stops) then x else y) input c b c')
    (hstops : ∀ found c₁, Runs stops input c found c₁ → c₁ = c) :
    (Runs x input c b c' ∧ (c.pos < input.significant.size → Runs stops input c true c)) ∨
      (c.pos < input.significant.size ∧ Runs y input c b c') := by
  obtain ⟨hend, h⟩ | ⟨hpos, h⟩ := h.bind_atEnd
  · obtain ⟨found, c₁, hfound, h⟩ := h.bind
    rw [hstops found c₁ hfound] at h
    exact .inl ⟨h, fun hpos => absurd hpos (Nat.not_lt_of_le hend)⟩
  · obtain ⟨found, c₁, hfound, h⟩ := h.bind
    obtain rfl := hstops found c₁ hfound
    cases found with
    | true => exact .inl ⟨h, fun _ => hfound⟩
    | false => exact .inr ⟨hpos, h⟩

theorem Runs.sees_cursor {k : Kind} {found : Bool} (h : Runs (sees k) input c found c') :
    c' = c := by
  cases h
  rfl

end Production
end ScriptTree
