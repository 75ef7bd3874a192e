import ScriptTree.Proofs.Reading

/-!
Productions that settle. A production may give a result or halt because the nesting is too deep, but
it does not run out of an allowance. It leaves the level that it was begun on, and it does not go
back in the input. A loop settles when every step that is not its last one reads a token.
-/
namespace ScriptTree.Production
variable {α β : Type} {input : Input} {c c' : Cursor} {d : Nat}

theorem Runs.andThen {a : α} {b : β} {c₁ : Cursor} {p : Production α} {f : α → Production β}
    (hp : Runs p input c a c₁) (hf : Runs (f a) input c₁ b c') :
    Runs (p >>= f) input c b c' := by
  unfold Runs at hp hf ⊢
  change (p input >>= fun a => f a input) c = _
  simp only [Bind.bind, EStateM.bind]
  rw [hp]
  exact hf

theorem runs_advance (h : c.pos < input.significant.size) :
    Runs advance input c (input.indexAt c.pos) c.next := by
  have hindex : Runs index input c (input.indexAt c.pos) c := rfl
  have hatEnd : Runs atEnd input c false c :=
    congrArg (EStateM.Result.ok · c) (decide_eq_false (Nat.not_le_of_lt h))
  exact hindex.andThen (hatEnd.andThen rfl)

theorem runs_advance_end (h : input.significant.size ≤ c.pos) :
    Runs advance input c (input.indexAt c.pos) c := by
  have hindex : Runs index input c (input.indexAt c.pos) c := rfl
  have hatEnd : Runs atEnd input c true c :=
    congrArg (EStateM.Result.ok · c) (decide_eq_true h)
  exact hindex.andThen (hatEnd.andThen rfl)

theorem runs_leaf (kind : Kind) (h : c.pos < input.significant.size) :
    Runs (leaf kind) input c (input.leafAt c.pos kind) c.next := by
  have htoken : Runs token? input c (some input.significant[c.pos]) c :=
    congrArg (EStateM.Result.ok · c) (Array.getElem?_eq_getElem h)
  rw [Input.leafAt, Input.textAt, Array.getElem?_eq_getElem h]
  exact htoken.andThen ((runs_advance h).andThen rfl)

/-- Production `p` does not run out of an allowance, and `Q` holds of what it gives and leaves. -/
def Settles (p : Production α) (input : Input) (c : Cursor) (Q : α → Cursor → Prop) : Prop :=
  match p input c with
  | .ok a c' => Q a c'
  | .error halt _ => halt ≠ .exhausted

theorem Settles.bind {p : Production α} {f : α → Production β} {Q : α → Cursor → Prop}
    {R : β → Cursor → Prop} (hp : Settles p input c Q)
    (hf : ∀ a c₁, Q a c₁ → Settles (f a) input c₁ R) : Settles (p >>= f) input c R := by
  unfold Settles at hp ⊢
  change match (p input >>= fun a => f a input) c with
    | .ok b c' => R b c'
    | .error halt _ => halt ≠ .exhausted
  simp only [Bind.bind, EStateM.bind]
  cases hrun : p input c with
  | ok a c₁ =>
    rw [hrun] at hp
    exact hf a c₁ hp
  | error halt c₁ =>
    rw [hrun] at hp
    exact hp

theorem Settles.mono {p : Production α} {Q R : α → Cursor → Prop} (hp : Settles p input c Q)
    (h : ∀ a c₁, Q a c₁ → R a c₁) : Settles p input c R := by
  unfold Settles at hp ⊢
  split
  · rename_i hrun
    rw [hrun] at hp
    exact h _ _ hp
  · rename_i hrun
    rw [hrun] at hp
    exact hp

/-- What is known of the runs of a production can be added to what it settles on. -/
theorem Settles.and_runs {p : Production α} {Q R : α → Cursor → Prop} (hp : Settles p input c Q)
    (h : ∀ a c₁, Runs p input c a c₁ → R a c₁) :
    Settles p input c fun a c₁ => Q a c₁ ∧ R a c₁ := by
  unfold Settles at hp ⊢
  split
  · rename_i hrun
    rw [hrun] at hp
    exact ⟨hp, h _ _ hrun⟩
  · rename_i hrun
    rw [hrun] at hp
    exact hp

theorem Settles.not_exhausted {p : Production α} {Q : α → Cursor → Prop}
    (hp : Settles p input c Q) : p input c ≠ .error .exhausted c' := by
  intro h
  unfold Settles at hp
  rw [h] at hp
  exact hp rfl

theorem Settles.bind_get {f : Cursor → Production β} {Q : β → Cursor → Prop}
    (h : Settles (f c) input c Q) : Settles (get >>= f) input c Q := h

theorem Settles.bind_read {f : Input → Production β} {Q : β → Cursor → Prop}
    (h : Settles (f input) input c Q) : Settles (read >>= f) input c Q := h

theorem Settles.bind_current {f : Kind → Production β} {Q : β → Cursor → Prop}
    (h : Settles (f (input.kindAt c.pos)) input c Q) : Settles (current >>= f) input c Q := h

theorem Settles.bind_index {f : Nat → Production β} {Q : β → Cursor → Prop}
    (h : Settles (f (input.indexAt c.pos)) input c Q) : Settles (index >>= f) input c Q := h

theorem Settles.bind_atEnd {f : Bool → Production β} {Q : β → Cursor → Prop}
    (hend : input.significant.size ≤ c.pos → Settles (f true) input c Q)
    (hmore : c.pos < input.significant.size → Settles (f false) input c Q) :
    Settles (atEnd >>= f) input c Q := by
  change Settles (f (decide (input.significant.size ≤ c.pos))) input c Q
  by_cases h : input.significant.size ≤ c.pos
  · rw [decide_eq_true h]
    exact hend h
  · rw [decide_eq_false h]
    exact hmore (Nat.lt_of_not_le h)

theorem Settles.bind_sees {f : Bool → Production β} {Q : β → Cursor → Prop} {k : Kind}
    (hk : k ≠ .endOfFile) (hfound : input.Sees c.pos k → Settles (f true) input c Q)
    (helse : ¬input.Sees c.pos k → Settles (f false) input c Q) :
    Settles (sees k >>= f) input c Q := by
  change Settles (f (input.kindAt c.pos == k)) input c Q
  by_cases h : input.kindAt c.pos = k
  · rw [h, beq_self_eq_true]
    exact hfound (Input.sees_of_kindAt h hk)
  · rw [beq_false_of_ne h]
    exact helse fun hsees => h (Input.kindAt_eq_of_sees hsees)

/-- Production `p` only looks at the place where it stands. -/
def Looks (input : Input) (p : Production α) (seen : Nat → α) : Prop :=
  ∀ c, Runs p input c (seen c.pos) c

theorem Looks.settles_bind {p : Production α} {seen : Nat → α} {f : α → Production β}
    {Q : β → Cursor → Prop} (hp : Looks input p seen) (h : Settles (f (seen c.pos)) input c Q) :
    Settles (p >>= f) input c Q := by
  apply Settles.bind (Q := fun a c₁ => a = seen c.pos ∧ c₁ = c)
  · unfold Settles
    rw [hp c]
    exact ⟨rfl, rfl⟩
  · rintro a c₁ ⟨ha, hc₁⟩
    rw [ha, hc₁]
    exact h

theorem looks_sees (k : Kind) : Looks input (sees k) (input.kindAt · == k) := fun _ => rfl

/-- The test that begins the steps of most loops. -/
theorem Settles.bind_atEnd_or {stops : Production Bool} {ends : Nat → Bool} {x y : Production β}
    {Q : β → Cursor → Prop} (hstops : Looks input stops ends) (hx : Settles x input c Q)
    (hy : c.pos < input.significant.size → ends c.pos = false → Settles y input c Q) :
    Settles (do if (← atEnd) || (← stops) then x else y) input c Q := by
  apply Settles.bind_atEnd
  · intro _
    apply hstops.settles_bind
    exact hx
  · intro hpos
    apply hstops.settles_bind
    cases hends : ends c.pos with
    | true => exact hx
    | false => exact hy hpos hends

/-- Cursor `c'` is on the level of `c` and not before it. It leaves the input only if `c` has. -/
structure Onward (input : Input) (c c' : Cursor) : Prop where
  depth_eq : c'.depth = c.depth
  pos_le : c.pos ≤ c'.pos
  le_size : c'.pos ≤ max c.pos input.significant.size

theorem Onward.refl (c : Cursor) : Onward input c c := ⟨rfl, Nat.le_refl _, Nat.le_max_left _ _⟩

theorem Onward.trans {c₁ c₂ c₃ : Cursor} (h : Onward input c₁ c₂) (h' : Onward input c₂ c₃) :
    Onward input c₁ c₃ := by
  obtain ⟨hdepth, hle, hsize⟩ := h
  obtain ⟨hdepth', hle', hsize'⟩ := h'
  exact ⟨hdepth'.trans hdepth, Nat.le_trans hle hle', by omega⟩

theorem Onward.next (h : c.pos < input.significant.size) : Onward input c c.next :=
  ⟨rfl, Nat.le_succ _, Nat.le_trans h (Nat.le_max_right _ _)⟩

/-- What production `p` does from any place on level `d`. -/
def Steady (input : Input) (d : Nat) (p : Production α) : Prop :=
  ∀ c, c.depth = d → Settles p input c fun _ c' => Onward input c c'

/-- What is read by `p` adds to what was read from `c` on. -/
theorem Steady.from {p : Production α} {c₁ : Cursor} (hp : Steady input d p) (hc : c.depth = d)
    (h : Onward input c c₁) : Settles p input c₁ fun _ c' => Onward input c c' ∧ c₁.pos ≤ c'.pos :=
  (hp c₁ (h.depth_eq.trans hc)).mono fun _ _ h' => ⟨h.trans h', h'.pos_le⟩

theorem Steady.bind {p : Production α} {f : α → Production β} (hp : Steady input d p)
    (hf : ∀ a, Steady input d (f a)) : Steady input d (p >>= f) := by
  intro c hc
  apply (hp c hc).bind
  intro a c₁ h
  exact ((hf a).from hc h).mono fun _ _ h' => h'.1

theorem Steady.choose {p q : Production α} {f : α → Production β} {b : Bool}
    (hp : Steady input d p) (hq : Steady input d q) (hf : ∀ a, Steady input d (f a)) :
    Steady input d (if b then p >>= f else q >>= f) := by
  cases b with
  | true => exact hp.bind hf
  | false => exact hq.bind hf

theorem steady_pure (a : α) : Steady input d (pure a) := fun c _ => Onward.refl c

theorem Steady.discard {p : Production α} (hp : Steady input d p) :
    Steady input d (Functor.discard p) := hp.bind fun _ => steady_pure _

/-! Looking at the input reads nothing. -/

theorem steady_get : Steady input d get := fun c _ => Onward.refl c

theorem steady_read : Steady input d read := fun c _ => Onward.refl c

theorem steady_current : Steady input d current := fun c _ => Onward.refl c

theorem steady_peek (ahead : Nat) : Steady input d (peek ahead) := fun c _ => Onward.refl c

theorem steady_sees (k : Kind) : Steady input d (sees k) := fun c _ => Onward.refl c

theorem steady_atEnd : Steady input d atEnd := fun c _ => Onward.refl c

theorem steady_index : Steady input d index := fun c _ => Onward.refl c

theorem steady_token? : Steady input d token? := fun c _ => Onward.refl c

theorem steady_afterLineBreak : Steady input d afterLineBreak := fun c _ => Onward.refl c

theorem steady_shown : Steady input d shown := fun c _ => Onward.refl c

theorem steady_node (kind : Kind) (start : Nat) (children : List Concrete) :
    Steady input d (node kind start children) := fun c _ => Onward.refl c

theorem steady_missing (kind : Kind) : Steady input d (missing kind) := fun c _ => Onward.refl c

/-! Reading a token, or reporting that it is not there. -/

theorem settles_advance (h : c.pos < input.significant.size) :
    Settles advance input c fun _ c' => c' = c.next := by
  unfold advance
  apply Settles.bind_index
  apply Settles.bind_atEnd
  · intro hend
    exact absurd h (Nat.not_lt_of_le hend)
  · intro _
    rfl

/-- Production `p` reads a token, if there is one. -/
def Moves (input : Input) (d : Nat) (p : Production α) : Prop :=
  ∀ c, c.depth = d → c.pos < input.significant.size →
    Settles p input c fun _ c' => Onward input c c' ∧ c.pos < c'.pos

theorem moves_advance : Moves input d advance := by
  intro c _ hpos
  apply (settles_advance hpos).mono
  rintro _ _ rfl
  exact ⟨.next hpos, Nat.lt_succ_self _⟩

theorem Moves.bind {p : Production α} {f : α → Production β} (hp : Moves input d p)
    (hf : ∀ a, Steady input d (f a)) : Moves input d (p >>= f) := by
  intro c hc hpos
  apply (hp c hc hpos).bind
  rintro a c₁ ⟨honward, hlt⟩
  apply ((hf a).from hc honward).mono
  rintro _ _ ⟨honward', hle⟩
  exact ⟨honward', Nat.lt_of_lt_of_le hlt hle⟩

theorem Moves.discard {p : Production α} (hp : Moves input d p) :
    Moves input d (Functor.discard p) := hp.bind fun _ => steady_pure _

theorem steady_advance : Steady input d advance := by
  intro c _
  unfold advance
  apply Settles.bind_index
  apply Settles.bind_atEnd
  · intro _
    exact Onward.refl c
  · intro h
    exact Onward.next h

theorem steady_reportAt (place : Option Placed) (m : Message) (args : List String) :
    Steady input d (reportAt place m args) := fun _ _ => ⟨rfl, Nat.le_refl _, Nat.le_max_left _ _⟩

theorem steady_report (m : Message) (args : List String) : Steady input d (report m args) :=
  steady_token?.bind fun _ => steady_read.bind fun _ => steady_reportAt _ _ _

theorem steady_reportExpected (k : Kind) : Steady input d (reportExpected k) := by
  apply steady_atEnd.bind
  intro atEnd
  split
  · exact steady_report _ _
  · exact steady_shown.bind fun _ => steady_report _ _

theorem steady_reportUnexpected : Steady input d reportUnexpected := by
  apply steady_atEnd.bind
  intro atEnd
  split
  · exact steady_report _ _
  · exact steady_shown.bind fun _ => steady_report _ _

theorem steady_reportSet (set : String) : Steady input d (reportSet set) :=
  steady_shown.bind fun _ => steady_report _ _

theorem steady_leaf (kind : Kind) : Steady input d (leaf kind) :=
  steady_token?.bind fun _ => steady_advance.bind fun _ => steady_pure _

theorem moves_leaf (kind : Kind) : Moves input d (leaf kind) := fun c hc hpos =>
  (moves_advance.bind fun _ => steady_pure _) c hc hpos

theorem steady_eat (k : Kind) : Steady input d (eat k) := by
  apply (steady_sees k).bind
  intro found
  split
  · exact steady_advance.discard.bind fun _ => steady_pure _
  · exact steady_pure _

theorem steady_expect (k : Kind) : Steady input d (expect k) := by
  apply (steady_sees k).bind
  intro found
  split
  · exact steady_advance.discard
  · apply steady_atEnd.bind
    intro atEnd
    apply (steady_peek 1).bind
    intro next
    split
    · exact steady_shown.bind fun _ => (steady_report _ _).bind fun _ =>
        steady_advance.discard.bind fun _ => steady_advance.discard
    · exact steady_reportExpected k

theorem settles_expect {k : Kind} (h : input.Sees c.pos k) :
    Settles (expect k) input c fun _ c' => c' = c.next := by
  have hkind : (input.kindAt c.pos == k) = true := by
    rw [Input.kindAt_eq_of_sees h, beq_self_eq_true]
  change Settles (if input.kindAt c.pos == k then discard advance else _) input c _
  rw [if_pos hkind]
  exact (settles_advance h.lt_size).bind fun _ _ h => h

theorem steady_endStatement : Steady input d endStatement := by
  apply (steady_eat .semicolon).bind
  intro found
  split
  · exact steady_pure _
  · apply steady_atEnd.bind
    intro atEnd
    apply (steady_sees .closeBrace).bind
    intro closes
    apply steady_afterLineBreak.bind
    intro broken
    split
    · exact steady_pure _
    · exact steady_shown.bind fun _ => steady_report _ _

/-- The body of a nested production is run one level deeper, and only if the limit allows that. -/
theorem Steady.nested {body : Production α}
    (h : d < input.limit → Steady input (d + 1) body) : Steady input d (nested body) := by
  intro c hc
  unfold Production.nested
  apply Settles.bind (Q := fun _ c₁ => c₁ = { c with depth := d + 1 } ∧ d < input.limit)
  · unfold enter
    apply Settles.bind (Q := fun _ c₁ => c₁ = { c with depth := d + 1 })
    · rw [← hc]
      rfl
    · rintro _ _ rfl
      change Settles (if input.limit < d + 1 then _ else _) _ _ _
      split
      · change (Halt.tooDeep _ _) ≠ .exhausted
        nofun
      · exact ⟨rfl, by omega⟩
  · rintro _ _ ⟨rfl, hlimit⟩
    have hbody := h hlimit { c with depth := d + 1 } rfl
    unfold Settles at hbody
    unfold Settles leaving
    cases hrun : body input { c with depth := d + 1 } with
    | ok a c₁ =>
      rw [hrun] at hbody
      obtain ⟨hdepth, hle, hsize⟩ := hbody
      exact ⟨by simp [hdepth, hc], hle, hsize⟩
    | error halt c₁ =>
      rw [hrun] at hbody
      exact hbody

/-! Loops. -/

/-- What a step of a loop does: a step that is not the last one reads a token. -/
def Turn (input : Input) (c : Cursor) (x : α ⊕ β) (c' : Cursor) : Prop :=
  Onward input c c' ∧ (x.isLeft = true → c.pos < c'.pos)

/-- The tokens that are left bound the steps of a loop. -/
theorem settles_repeating {step : α → Production (α ⊕ β)}
    (hstep : ∀ a c, c.depth = d → Settles (step a) input c (Turn input c)) (n : Nat) (a : α)
    (hc : c.depth = d) (hn : input.significant.size - c.pos < n) :
    Settles (repeating step n a) input c fun _ c' => Onward input c c' := by
  induction n generalizing a c with
  | zero => omega
  | succ n ih =>
    unfold repeating
    apply (hstep a c hc).bind
    rintro (next | result) c₁ ⟨honward, hmoves⟩
    · have hlt := hmoves rfl
      have hle := honward.le_size
      exact (ih next (honward.depth_eq.trans hc) (by omega)).mono fun _ _ h => honward.trans h
    · exact honward

theorem steady_iterate {step : α → Production (α ⊕ β)}
    (hcount : input.significant.size ≤ input.count) (a : α)
    (hstep : ∀ a c, c.depth = d → Settles (step a) input c (Turn input c)) :
    Steady input d (iterate a step) := by
  intro c hc
  change Settles (repeating step (input.count + 1) a) input c _
  exact settles_repeating hstep _ a hc (by omega)

theorem settles_last (b : β) :
    Settles (pure (.inr b) : Production (α ⊕ β)) input c (Turn input c) :=
  ⟨Onward.refl c, nofun⟩

/-- What is read before a step adds to what the step reads. -/
theorem Turn.after {c₁ : Cursor} {x : α ⊕ β} (honward : Onward input c c₁)
    (h : Turn input c₁ x c') : Turn input c x c' :=
  ⟨honward.trans h.1, fun hx => Nat.lt_of_le_of_lt honward.pos_le (h.2 hx)⟩

theorem Moves.turn {step : Production (α ⊕ β)} (h : Moves input d step) (hc : c.depth = d)
    (hpos : c.pos < input.significant.size) : Settles step input c (Turn input c) :=
  (h c hc hpos).mono fun _ _ h' => ⟨h'.1, fun _ => h'.2⟩

/-- A step that ends at a separator or goes on after it. -/
theorem settles_eat {k : Kind} (hk : k ≠ .endOfFile) {c₁ : Cursor} (honward : Onward input c c₁)
    (more : α) (last : β) :
    Settles (do return if ← eat k then .inl more else .inr last) input c₁ (Turn input c) := by
  apply Settles.bind (Q := fun found c₂ => Onward input c c₂ ∧ (found = true → c.pos < c₂.pos))
  · unfold eat
    apply Settles.bind_sees hk
    · intro hsees
      rw [if_pos rfl]
      apply (moves_advance.discard c₁ rfl hsees.lt_size).bind
      rintro _ c₂ ⟨honward₂, hlt⟩
      exact ⟨honward.trans honward₂, fun _ => Nat.lt_of_le_of_lt honward.pos_le hlt⟩
    · intro _
      exact ⟨honward, nofun⟩
  · rintro (_ | _) c₂ ⟨honward₂, hlt⟩
    · exact ⟨honward₂, nofun⟩
    · exact ⟨honward₂, fun _ => hlt rfl⟩

end ScriptTree.Production
