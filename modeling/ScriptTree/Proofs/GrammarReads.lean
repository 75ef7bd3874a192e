import ScriptTree.Proofs.Reading

/-!
What productions build. Each run of a production follows a derivation of its
rule, with one report for each fault of the derivation.
-/
namespace ScriptTree

/-- A derivation behind the step from cursor `c` to cursor `c'`. -/
def Read (input : Input) (r : Rule) (c c' : Cursor) (ts : List Concrete) : Prop :=
  ∃ e, c'.problems.size = c.problems.size + e ∧ Derives input r c.pos c'.pos e ts

/-- No operator at rank `p` goes on with an operand: it does not bind more tightly than `floor`, or
it is an `in` that is not read. -/
def Input.EndsOperand (input : Input) (floor : Precedence) (noIn : Bool) (p : Nat) : Prop :=
  ∀ precedence, (input.kindAt p).binaryPrecedence? = some precedence →
    noIn = true ∧ input.kindAt p = .inKeyword ∨ precedence.level ≤ floor.level

/-- The productions of a grammar follow their rules. -/
structure Grammar.Sound (g : Grammar) (input : Input) : Prop where
  statement : ∀ {c t c'}, g.statement.Runs input c t c' → Read input .statement c c' [t]
  assignment : ∀ {noIn c t c'}, (g.assignment noIn).Runs input c t c' →
    Read input .assignment c c' [t]
  binary : ∀ {floor noIn c t c'}, (g.binary floor noIn).Runs input c t c' →
    Read input (.binary floor) c c' [t]
  unary : ∀ {c t c'}, g.unary.Runs input c t c' → Read input .unary c c' [t]
  member : ∀ {calls c t c'}, (g.member calls).Runs input c t c' → Read input .member c c' [t]
  binary_ends : ∀ {floor noIn c t c'}, (g.binary floor noIn).Runs input c t c' →
    input.EndsOperand floor noIn c'.pos

namespace Production
variable {input : Input} {c c' : Cursor} {t : Concrete} {ts : List Concrete}

/-- A leaf of a kind that a rule takes. -/
theorem read_leaf {r : Rule} {k tag : Kind} (h : Runs (leaf tag) input c t c')
    (hsees : input.Sees c.pos k) (htag : r.leafTag? k = some tag) : Read input r c c' [t] := by
  obtain ⟨rfl, rfl⟩ := h.leaf hsees.lt_size
  exact ⟨0, rfl, .leaf hsees htag⟩

/-- A node for something missing, right after it was reported. -/
theorem read_missing {r : Rule} {tag : Kind} {c₁ : Cursor} (hreport : Reported c c₁ 1)
    (h : Runs (missing tag) input c₁ t c') (htag : r.missingTag? = some tag) :
    Read input r c c' [t] := by
  obtain ⟨rfl, rfl⟩ := h.missing
  obtain ⟨hplace, hsize⟩ := hreport
  rw [hplace]
  exact ⟨1, hsize, hplace ▸ .missing htag⟩

/-- The kind of the current token, when it is not that of the end. -/
theorem sees_kindAt {k : Kind} (h : input.kindAt c.pos = k) (hk : k ≠ .endOfFile) :
    input.Sees c.pos k := Input.sees_of_kindAt h hk

/-- A test that the end of the input fails holds of tokens only. -/
theorem sees_of_test {p : Nat} (test : Kind → Bool) (h : test (input.kindAt p) = true)
    (hend : test .endOfFile = false) : input.Sees p (input.kindAt p) := by
  apply Input.sees_of_kindAt rfl
  intro heq
  rw [heq, hend] at h
  cases h

theorem sees_of_some {α : Type} {p : Nat} {f : Kind → Option α} {a : α}
    (h : f (input.kindAt p) = some a) (hend : f .endOfFile = none) :
    input.Sees p (input.kindAt p) :=
  sees_of_test (fun k => (f k).isSome) (by rw [h]; rfl) (by rw [hend]; rfl)

theorem reads_identifier (h : Runs identifier input c t c') : Read input .identifier c c' [t] := by
  unfold identifier at h
  replace h := h.bind_current
  split at h
  · rename_i hkind
    exact read_leaf h (sees_of_test Kind.isIdentifier hkind rfl) (by simp [Rule.leafTag?, hkind])
  · obtain ⟨_, c₁, hreport, h⟩ := h.bind
    exact read_missing hreport.reportExpected h rfl

/-- What a loop that collects trees has to keep: it gives those that are `done`, in the order they
were read, and then those of the rule. -/
def Collects (input : Input) (r : Rule) (done : List Concrete) (c : Cursor) (ts : List Concrete)
    (c' : Cursor) : Prop :=
  ∃ more, ts = done.reverse ++ more ∧ Read input r c c' more

theorem Collects.read {r : Rule} (h : Collects input r [] c ts c') : Read input r c c' ts := by
  obtain ⟨more, rfl, h⟩ := h
  exact h

theorem collects_none {r : Rule} {done : List Concrete} (h : Derives input r c.pos c.pos 0 []) :
    Collects input r done c done.reverse c := ⟨[], by simp, 0, rfl, h⟩

/-- Items in a list of them. -/
theorem reads_separated {item : Production Concrete} {r : Rule}
    (hitem : ∀ {c t c'}, Runs item input c t c' → Read input r c c' [t])
    (h : Runs (separated item) input c ts c') : Read input (.separated r) c c' ts := by
  unfold separated at h
  apply Collects.read
  refine h.iterate ?_
  · intro done c x c' h
    obtain ⟨t, c₁, ht, h⟩ := h.bind
    obtain ⟨e, he, hd⟩ := hitem ht
    obtain ⟨hsees, h⟩ | ⟨-, h⟩ := h.bind_eat nofun
    · obtain ⟨rfl, rfl⟩ := Runs.pure h
      rintro ts c' ⟨more, rfl, e', he', hd'⟩
      exact ⟨t :: more, by simp, _, by rw [he', Cursor.next_problems, he, Nat.add_assoc],
        .more hd hsees hd'⟩
    · obtain ⟨rfl, rfl⟩ := Runs.pure h
      exact ⟨[t], by simp, e, he, .one hd⟩

/-- A list in parentheses, and what comes after it. -/
theorem runs_listed {β : Type} {b : β} {item : Production Concrete} {r : Rule}
    (rest : Concrete → Production β)
    (hitem : ∀ {c t c'}, Runs item input c t c' → Read input r c c' [t])
    (h : Runs (do
      let start ← index
      expect .openParen
      let items ← if ← sees .closeParen then pure [] else separated item
      expect .closeParen
      rest (← node .arguments start items)) input c b c') :
    ∃ t c₁, Read input (.listed r) c c₁ [t] ∧ Runs (rest t) input c₁ b c' := by
  replace h := h.bind_index
  obtain ⟨_, c₁, hopen, h⟩ := h.bind
  obtain ⟨e, he, hopen⟩ := hopen.expect nofun
  obtain ⟨-, h⟩ | ⟨-, h⟩ := h.bind_sees nofun
  · obtain ⟨_, c₂, hclose, h⟩ := Runs.bind (Runs.bind_pure h)
    obtain ⟨e', he', hclose⟩ := hclose.expect nofun
    obtain ⟨t, c₃, ht, h⟩ := h.bind
    obtain ⟨rfl, rfl⟩ := ht.node
    exact ⟨_, _, ⟨_, by omega, .noItems hopen hclose⟩, h⟩
  · obtain ⟨items, c₂, hitems, h⟩ := Runs.bind h
    obtain ⟨e', he', hitems⟩ := reads_separated hitem hitems
    obtain ⟨_, c₃, hclose, h⟩ := h.bind
    obtain ⟨e'', he'', hclose⟩ := hclose.expect nofun
    obtain ⟨t, c₄, ht, h⟩ := h.bind
    obtain ⟨rfl, rfl⟩ := ht.node
    exact ⟨_, _, ⟨_, by omega, .someItems hopen hitems hclose⟩, h⟩

/-- Tokens that are read over without a report. -/
def Skips (input : Input) (c c' : Cursor) : Prop :=
  c.pos ≤ input.significant.size →
    c.pos ≤ c'.pos ∧ c'.pos ≤ input.significant.size ∧ c'.problems.size = c.problems.size

theorem Skips.advance {i : Nat} {c₁ : Cursor} (h : Runs advance input c i c₁)
    (hskips : Skips input c₁ c') : Skips input c c' := by
  intro hpos
  obtain ⟨hle, hpos₁, hsize⟩ := h.advance_le hpos
  obtain ⟨hle', hpos', hsize'⟩ := hskips hpos₁
  exact ⟨Nat.le_trans hle hle', hpos', hsize'.trans hsize⟩

/-- A loop that reads over tokens until a test holds. -/
theorem skips_loop (stops : Production Bool) {u : Unit}
    (hstops : ∀ c found c₁, Runs stops input c found c₁ → c₁ = c)
    (h : Runs (iterate () fun _ => do
      if (← atEnd) || (← stops) then return .inr ()
      discard advance
      return .inl ()) input c u c') : Skips input c c' := by
  refine h.iterate (I := fun _ c _ c' => Skips input c c') ?_
  intro _ c x c' h
  obtain ⟨h, -⟩ | ⟨-, h⟩ := h.bind_atEnd_or (hstops c)
  · obtain ⟨rfl, rfl⟩ := h.pure
    exact fun hpos => ⟨Nat.le_refl _, hpos, rfl⟩
  · obtain ⟨_, c₁, hadvance, h⟩ := h.bind
    obtain ⟨_, hadvance⟩ := hadvance.discard
    obtain ⟨rfl, rfl⟩ := h.pure
    exact fun _ _ hskips => hskips.advance hadvance

theorem skips_skipToStatement {u : Unit} (h : Runs skipToStatement input c u c') :
    Skips input c c' := by
  unfold skipToStatement at h
  obtain ⟨_, c₁, hadvance, h⟩ := h.bind
  obtain ⟨_, hadvance⟩ := hadvance.discard
  refine Skips.advance hadvance (skips_loop (do return startsStatement (← current)) ?_ h)
  intro c found c₁ h
  cases h
  rfl

section
variable {g : Grammar} (hg : g.Sound input)
include hg

/-- Statements up to the end of the input or to a place where the test holds. -/
theorem reads_statements {stops : Production Bool}
    (hstops : ∀ c found c₁, Runs stops input c found c₁ → c₁ = c)
    (h : Runs (statements g stops) input c ts c') :
    Read input .statements c c' ts ∧
      (c'.pos < input.significant.size → Runs stops input c' true c') := by
  unfold statements at h
  have hloop := h.iterate (I := fun done c ts c' => Collects input .statements done c ts c' ∧
    (c'.pos < input.significant.size → Runs stops input c' true c')) ?_
  · exact ⟨hloop.1.read, hloop.2⟩
  · intro done c x c' h
    obtain ⟨h, hend⟩ | ⟨hpos, h⟩ := h.bind_atEnd_or (hstops c)
    · obtain ⟨rfl, rfl⟩ := h.pure
      exact ⟨collects_none .noMoreStatements, hend⟩
    · obtain ⟨t, c₁, ht, h⟩ := h.bind_get.bind
      obtain ⟨e, he, hd⟩ := hg.statement ht
      replace h := h.bind_get
      split at h
      · rename_i hsame
        rw [beq_iff_eq] at hsame
        obtain ⟨_, c₂, hskip, h⟩ := h.bind
        obtain ⟨hle, hbound, hsize⟩ := skips_skipToStatement hskip (hsame ▸ Nat.le_of_lt hpos)
        obtain ⟨rfl, rfl⟩ := h.pure
        rintro ts c' ⟨⟨more, rfl, e', he', hd'⟩, hstop⟩
        rw [hsame] at hd hle
        exact ⟨⟨more, rfl, _, by omega, .skipped hd hle hbound hd'⟩, hstop⟩
      · rename_i hmoved
        rw [beq_iff_eq] at hmoved
        obtain ⟨rfl, rfl⟩ := h.pure
        rintro ts c' ⟨⟨more, rfl, e', he', hd'⟩, hstop⟩
        have hlt : c.pos < c₁.pos := by
          have := hd.forward.1
          omega
        exact ⟨⟨t :: more, by simp, _, by omega, .nextStatement hd hlt hd'⟩, hstop⟩

theorem reads_block (h : Runs (block g) input c t c') : Read input .block c c' [t] := by
  unfold block at h
  replace h := h.bind_index
  obtain ⟨_, c₁, hopen, h⟩ := h.bind
  obtain ⟨e, he, hopen⟩ := hopen.expect nofun
  obtain ⟨ts, c₂, hts, h⟩ := h.bind
  obtain ⟨e', he', hts⟩ := (reads_statements hg (fun _ _ _ h => h.sees_cursor) hts).1
  obtain ⟨_, c₃, hclose, h⟩ := h.bind
  obtain ⟨e'', he'', hclose⟩ := hclose.expect nofun
  obtain ⟨rfl, rfl⟩ := h.node
  exact ⟨_, by omega, .block hopen hts hclose⟩

theorem reads_function {isStatement : Bool} (h : Runs (function g isStatement) input c t c')
    (hsees : input.Sees c.pos .functionKeyword) :
    Read input (.function isStatement) c c' [t] := by
  unfold function at h
  replace h := (h.bind_advance hsees.lt_size).bind_current
  split at h
  · rename_i hkind
    have hname := sees_of_test Kind.isIdentifier hkind rfl
    obtain ⟨name, c₁, hleaf, h⟩ := h.bind
    obtain ⟨rfl, rfl⟩ := hleaf.leaf hname.lt_size
    obtain ⟨a, c₂, ⟨e, he, ha⟩, h⟩ := runs_listed _ reads_identifier h
    obtain ⟨body, c₃, hbody, h⟩ := h.bind
    obtain ⟨e', he', hbody⟩ := reads_block hg hbody
    obtain ⟨rfl, rfl⟩ := h.node
    simp only [Cursor.next_problems] at he
    exact ⟨_, by omega, .named hsees hname hkind ha hbody⟩
  · obtain ⟨c₁, hreport, h⟩ : ∃ c₁, Reported c.next c₁ (if isStatement then 1 else 0) ∧
        Runs _ input c₁ t c' := by
      cases isStatement with
      | true =>
        obtain ⟨_, c₁, hreport, h⟩ := Runs.bind h
        exact ⟨c₁, hreport.reportExpected, h⟩
      | false => exact ⟨c.next, ⟨rfl, rfl⟩, h⟩
    obtain ⟨hplace, hsize⟩ := hreport
    obtain ⟨a, c₂, ⟨e, he, ha⟩, h⟩ := runs_listed _ reads_identifier h
    obtain ⟨body, c₃, hbody, h⟩ := h.bind
    obtain ⟨e', he', hbody⟩ := reads_block hg hbody
    obtain ⟨rfl, rfl⟩ := h.node
    rw [Cursor.next_problems] at hsize
    rw [hplace] at ha
    exact ⟨_, by omega, .unnamed hsees ha hbody⟩

end

end Production
end ScriptTree
