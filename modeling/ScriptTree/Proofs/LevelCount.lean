import ScriptTree.Proofs.LevelLimit
import ScriptTree.Proofs.TwinStatements

/-!
Levels that stay open. A production comes back from every level it goes to, also when it stops
further down; only the level that is past the limit is never left. So the depth of a cursor tells
how often a script on it was given up, and each time is reported once, after all other reports.
-/
namespace ScriptTree

/-- From `c` to `c'` as many levels are left as are gone to, and none is past the limit. -/
structure Cursor.Balanced (c c' : Cursor) : Prop where
  depth_eq : c'.depth = c.depth
  reports : ∃ ds : Diagnostics, c'.problems = c.problems ++ ds ∧
    ∀ d ∈ ds, d.code ≠ Message.tooDeep.code

theorem Cursor.Balanced.refl (c : Cursor) : c.Balanced c :=
  ⟨rfl, #[], by simp⟩

theorem Cursor.Balanced.trans {c c₁ c' : Cursor} (h : c.Balanced c₁) (h' : c₁.Balanced c') :
    c.Balanced c' := by
  obtain ⟨ds, hds, hcodes⟩ := h.reports
  obtain ⟨es, hes, hcodes'⟩ := h'.reports
  refine ⟨h'.depth_eq.trans h.depth_eq, ds ++ es, ?_, ?_⟩
  · rw [hes, hds, Array.append_assoc]
  · intro d hd
    rcases Array.mem_append.mp hd with hd | hd
    · exact hcodes d hd
    · exact hcodes' d hd

/-- The depth alone tells which levels are open. -/
theorem Cursor.Balanced.level {c c' : Cursor} {depth depth' : Nat}
    (h : ({ c with depth } : Cursor).Balanced c') (heq : depth' = c.depth) :
    c.Balanced { c' with depth := depth' } := ⟨heq, h.reports⟩

namespace Production
variable {α β : Type}

/-- How a production ends that is begun at `c`. -/
inductive Ending (input : Input) (c : Cursor) : EStateM.Result Halt Cursor α → Prop where
  | found : c.Balanced c' → Ending input c (.ok a c')
  /-- One level is open, and its report is the last. -/
  | tooDeep : c.Balanced c₁ → d.code = Message.tooDeep.code →
      Ending input c (.error (.tooDeep input.limit place)
        ({ c₁ with depth := c.depth + 1 }.reported d))
  | exhausted : c.Balanced c' → Ending input c (.error .exhausted c')

variable {input : Input} {c c' : Cursor}

theorem Ending.after {x : EStateM.Result Halt Cursor α} (h : c.Balanced c')
    (hx : Ending input c' x) : Ending input c x := by
  cases hx with
  | found h' => exact .found (h.trans h')
  | tooDeep h' hcode =>
    rw [h.depth_eq]
    exact .tooDeep (h.trans h') hcode
  | exhausted h' => exact .exhausted (h.trans h')

theorem ending_bind {p : Production α} {f : α → Production β} (hp : Ending input c (p input c))
    (hf : ∀ a c₁, Runs p input c a c₁ → Ending input c₁ (f a input c₁)) :
    Ending input c ((p >>= f) input c) := by
  change Ending input c ((p input >>= fun a => f a input) c)
  simp only [Bind.bind, EStateM.bind]
  have hrun (a : α) (c₁ : Cursor) (h : p input c = .ok a c₁) := hf a c₁ h
  generalize p input c = x at hp hrun
  cases hp with
  | found h => exact (hrun _ _ rfl).after h
  | tooDeep h hcode => exact .tooDeep h hcode
  | exhausted h => exact .exhausted h

/-- The reports of the grammar are not that of the limit. -/
theorem ending_reportAt {place : Option Placed} {m : Message} (hm : m ∈ Message.grammatical)
    (args : List String) : Ending input c (reportAt place m args input c) := by
  have hcode : m.code ≠ Message.tooDeep.code := by
    simp only [Message.grammatical, List.mem_cons, List.not_mem_nil, or_false] at hm
    rcases hm with rfl | rfl | rfl | rfl <;> decide
  refine .found ⟨rfl, #[diagnosticAt input.lines place m args], Array.push_eq_append, ?_⟩
  intro d hd
  rw [Array.mem_singleton.mp hd, diagnosticAt_code]
  exact hcode

/-- A level that is gone to is left again, however its body ends. -/
theorem ending_leaving {body : Production α}
    (hbody : Ending input { c with depth := c.depth + 1 }
      (body input { c with depth := c.depth + 1 })) :
    Ending input c (leaving body input { c with depth := c.depth + 1 }) := by
  unfold leaving
  generalize body input { c with depth := c.depth + 1 } = x at hbody
  cases hbody with
  | found h => exact .found (h.level (by rw [h.depth_eq, Nat.add_sub_cancel]))
  | @tooDeep c₁ _ _ h hcode =>
    have hlevel : c.Balanced { c₁ with depth := c.depth } := h.level rfl
    exact (Ending.tooDeep hlevel hcode :)
  | exhausted h => exact .exhausted (h.level (by rw [h.depth_eq, Nat.add_sub_cancel]))

theorem ending_nested {body : Production α}
    (hbody : Ending input { c with depth := c.depth + 1 }
      (body input { c with depth := c.depth + 1 })) :
    Ending input c (nested body input c) := by
  change Ending input c ((enter input >>= fun _ => leaving body input) c)
  simp only [Bind.bind, EStateM.bind, enter_eq]
  by_cases hlimit : input.limit < c.depth + 1
  · rw [if_pos hlimit]
    exact .tooDeep (.refl c) (diagnosticAt_code ..)
  · rw [if_neg hlimit]
    exact ending_leaving hbody

theorem Runs.ending {p : Production α} {a : α} (hrun : Runs p input c a c')
    (h : c.Balanced c') : Ending input c (p input c) := by
  unfold Runs at hrun
  rw [hrun]
  exact .found h

theorem ending_advance : Ending input c (advance input c) := by
  by_cases hpos : c.pos < input.significant.size
  · exact (runs_advance hpos).ending ⟨rfl, (Cursor.Balanced.refl c).reports⟩
  · exact (runs_advance_end (Nat.le_of_not_lt hpos)).ending (.refl c)

/-- What is composed of basic steps ends with all levels left, but for one past the limit. -/
theorem ComposedFrom.ending {p : Production α} (h : ComposedFrom input c p) :
    Ending input c (p input c) := by
  induction h with
  | look hseen => exact hseen.ending (.refl _)
  | bind _ _ ihp ihf => exact ending_bind ihp ihf
  | advance => exact ending_advance
  | reportAt hm _ => exact ending_reportAt hm _
  | nested _ ih => exact ending_nested ih
  | exhausted => exact .exhausted (.refl _)

end Production

/-! Scripts read one after another. -/

/-- Whether no script was built because of the limit on levels. -/
def Halt.stopped : Except Halt Concrete → Bool
  | .error (.tooDeep _ _) => true
  | _ => false

/-- Scripts are read on one cursor, each from where the one before it was left, and `results` is
what they come to. What was reported may be taken at any time. -/
inductive Cursor.Session (input : Input) : List (Except Halt Concrete) → Cursor → Prop where
  | start : Session input [] .initial
  | read : Session input results c → c.program input = (result, c') →
      Session input (results ++ [result]) c'
  | take : Session input results c → Session input results c.takeProblems.2

/-- What reading a script comes to: all levels are left, or one is open and reported last. -/
theorem Cursor.program_cases (tokens : Array Token) (lines : LineMap) (limit : Nat)
    {c c' : Cursor} {result : Except Halt Concrete}
    (h : c.program (.ofTokens tokens lines limit) = (result, c')) :
    (∃ tree, result = .ok tree) ∧ c'.depth = c.depth ∨
    ∃ place ds d, result = .error (.tooDeep limit place) ∧ c'.depth = c.depth + 1 ∧
      c'.problems = (c.problems ++ ds).push d ∧ d.code = Message.tooDeep.code ∧
      ∀ e ∈ ds, e.code ≠ Message.tooDeep.code := by
  have hending := (Production.composed_program (.ofTokens tokens lines limit) c).ending
  have hsettles := settles_program (Input.significant_size_le tokens lines limit) c
  unfold Cursor.program at h
  unfold Production.Settles at hsettles
  generalize Production.program (.ofTokens tokens lines limit) c = x at h hending hsettles
  cases hending with
  | found hbalanced =>
    cases h
    exact .inl ⟨⟨_, rfl⟩, hbalanced.depth_eq⟩
  | tooDeep hbalanced hcode =>
    cases h
    obtain ⟨ds, hds, hcodes⟩ := hbalanced.reports
    exact .inr ⟨_, ds, _, rfl, rfl, congrArg (Array.push · _) hds, hcode, hcodes⟩
  | exhausted _ => exact absurd rfl hsettles

/-- The depth of a cursor counts the scripts on it that went past the limit. -/
theorem Cursor.Session.depth_eq {tokens : Array Token} {lines : LineMap} {limit : Nat}
    {results : List (Except Halt Concrete)} {c : Cursor}
    (h : Session (.ofTokens tokens lines limit) results c) :
    c.depth = results.countP Halt.stopped := by
  induction h with
  | start => rfl
  | read _ hprogram ih =>
    rw [List.countP_append, ← ih]
    obtain ⟨⟨tree, rfl⟩, hdepth⟩ | ⟨place, ds, d, rfl, hdepth, -⟩ :=
      program_cases tokens lines limit hprogram
    · exact hdepth
    · exact hdepth
  | take _ ih => exact ih

/-- The count of open levels is that of the scripts given up, and each of these is reported once,
after everything else; a script that can be read is read alike within every greater limit. -/
theorem program_levels_balanced (tokens : Array Token) (lines : LineMap) (limit : Nat) :
    let input := Input.ofTokens tokens lines limit
    (∀ results c, Cursor.Session input results c → c.depth = results.countP Halt.stopped) ∧
    (∀ (c : Cursor) halt c', c.program input = (.error halt, c') →
      ∃ place ds d, halt = .tooDeep limit place ∧ c'.problems = (c.problems ++ ds).push d ∧
        d.code = 1104 ∧ ∀ e ∈ ds, e.code ≠ 1104) ∧
    ∀ limit' tree c, limit ≤ limit' → Cursor.initial.program input = (.ok tree, c) →
      Cursor.initial.program (.ofTokens tokens lines limit') = (.ok tree, c) := by
  intro input
  refine ⟨fun _ _ h => h.depth_eq, ?_, ?_⟩
  · intro c halt c' h
    obtain ⟨⟨tree, htree⟩, -⟩ | ⟨place, ds, d, hresult, -, hproblems, hcodes⟩ :=
      Cursor.program_cases tokens lines limit h
    · cases htree
    · cases hresult
      exact ⟨place, ds, d, rfl, hproblems, hcodes⟩
  · intro limit' tree c hlimit h
    have hpersists : Production.Persists input limit' Production.program Production.program :=
      Production.persists_program hlimit
    have hrun := hpersists _ _ _ (program_eq_ok h)
    unfold Production.Runs at hrun
    rw [Input.ofTokens_allowing] at hrun
    unfold Cursor.program
    rw [hrun]

/-- An empty statement, given up twice where no level is allowed and read within one level. -/
theorem program_levels_balanced_semicolon :
    let tokens : Array Token := #[⟨.semicolon, ";", 1, 0, 0, false, false⟩]
    let input (limit : Nat) := Input.ofTokens tokens (.ofText ";") limit
    (∃ halt halt' c, Cursor.Session (input 0) [.error halt, .error halt'] c ∧ c.depth = 2) ∧
    ∃ tree c, Cursor.initial.program (input 1) = (.ok tree, c) ∧ tree.children.length = 1 ∧
      Cursor.initial.program (input 2) = (.ok tree, c) := by
  intro tokens input
  constructor
  · have hstart : Cursor.Session (input 0) [] .initial := .start
    have hsession := (hstart.read rfl).read rfl
    exact ⟨_, _, _, hsession, (program_levels_balanced tokens _ 0).1 _ _ hsession⟩
  · have hrun : Cursor.initial.program (input 1) =
        (.ok (.inner .script 0 (some 0) [.inner .emptyStatement 0 (some 0) []]), ⟨1, 0, #[]⟩) := rfl
    exact ⟨_, _, hrun, rfl, (program_levels_balanced tokens _ 1).2.2 2 _ _ (by decide) hrun⟩

end ScriptTree
