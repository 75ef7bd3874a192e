import ScriptTree.Node.Locate
import ScriptTree.Proofs.WrittenForm

/-!
What the locator finds. It leaves out all that is inside a node off the query and ends at the first
exact answer. Where nodes cover what is inside them, it finds the same node as a search through the
list of all nodes, in which nothing is left out.
-/
namespace ScriptTree.Node

/-- The query from `left` to `right` means this very node: one with just that range, or for a cursor
an expression without inner structure that holds or touches it. -/
def IsMeant (left right : Nat) (n : Node) : Prop :=
  (left < right ∧ n.range = ⟨left, right⟩) ∨
    (left = right ∧ n.kind.isAtomicLeaf = true ∧ n.range.start ≤ left ∧ left ≤ n.range.stop)

/-- The node goes over the query, the ends of both included. -/
def Encloses (left right : Nat) (n : Node) : Prop :=
  n.range.start ≤ left ∧ right ≤ n.range.stop

instance (left right : Nat) : DecidablePred (IsMeant left right) := fun _ =>
  inferInstanceAs (Decidable (_ ∨ _))

instance (left right : Nat) : DecidablePred (Encloses left right) := fun _ =>
  inferInstanceAs (Decidable (_ ∧ _))

/-- The answer to a query among some nodes: the first that is meant, or else the last that goes over
the query. -/
def pick? (left right : Nat) (nodes : List Node) : Option Node :=
  (nodes.find? (IsMeant left right ·)).or (nodes.filter (Encloses left right ·)).getLast?

/-- The range of the node covers those of the nodes directly inside it. -/
def CoversChildren (n : Node) : Prop := ∀ c ∈ n.children, n.range.covers c.range = true

variable {left right : Nat} {n c d : Node} {nodes rest : List Node} {s s' : Sighting}

theorem IsMeant.encloses (h : n.IsMeant left right) : n.Encloses left right := by
  rcases h with ⟨_, hrange⟩ | ⟨rfl, _, hstart, hstop⟩
  · rw [Encloses, hrange]
    exact ⟨Nat.le_refl _, Nat.le_refl _⟩
  · exact ⟨hstart, hstop⟩

theorem answers_iff (hle : left ≤ right) : n.answers left right = true ↔ n.IsMeant left right := by
  unfold answers IsMeant
  by_cases heq : left = right
  · subst heq
    simp [Range.holds]
  · have hlt : left < right := Nat.lt_of_le_of_ne hle heq
    cases n.range
    simp [heq, hlt]

/-! Picking from a list, one node after the other. -/

theorem pick?_cons_meant (h : n.IsMeant left right) : pick? left right (n :: rest) = some n := by
  rw [pick?, List.find?_cons_of_pos (by simpa using h), Option.some_or]

theorem pick?_cons_encloses (hmeant : ¬n.IsMeant left right) (h : n.Encloses left right) :
    pick? left right (n :: rest) = (pick? left right rest).or (some n) := by
  have hlast : (n :: rest.filter (Encloses left right ·)).getLast? =
      (rest.filter (Encloses left right ·)).getLast?.or (some n) := by
    rw [List.getLast?_cons]
    cases (rest.filter (Encloses left right ·)).getLast? <;> rfl
  rw [pick?, List.find?_cons_of_neg (by simpa using hmeant),
    List.filter_cons_of_pos (by simpa using h), hlast, pick?, Option.or_assoc]

theorem pick?_cons_off (h : ¬n.Encloses left right) :
    pick? left right (n :: rest) = pick? left right rest := by
  have hmeant : ¬n.IsMeant left right := fun hmeant => h hmeant.encloses
  rw [pick?, List.find?_cons_of_neg (by simpa using hmeant),
    List.filter_cons_of_neg (by simpa using h), pick?]

theorem pick?_append_off (h : ∀ n ∈ nodes, ¬n.Encloses left right) :
    pick? left right (nodes ++ rest) = pick? left right rest := by
  induction nodes with
  | nil => rfl
  | cons n nodes ih =>
    obtain ⟨hn, hnodes⟩ := List.forall_mem_cons.mp h
    rw [List.cons_append, pick?_cons_off hn, ih hnodes]

/-! Nodes off the query. -/

theorem covers_trans {a b c : Range} (hab : a.covers b = true) (hbc : b.covers c = true) :
    a.covers c = true := by
  simp only [Range.covers, decide_eq_true_eq] at hab hbc ⊢
  omega

/-- A node that covers what is directly inside it, as do all nodes inside it, covers them all. -/
theorem covers_of_mem_preorder (h : ∀ d ∈ n.preorder, d.CoversChildren) :
    ∀ d ∈ n.preorder, n.range.covers d.range = true := by
  fun_induction preorder n with
  | case1 n ih =>
    rw [← preorder] at h ⊢
    intro d hd
    rw [preorder_eq] at hd
    rcases List.mem_cons.mp hd with rfl | hd
    · exact decide_eq_true ⟨Nat.le_refl _, Nat.le_refl _⟩
    · obtain ⟨c, hc, hd⟩ := List.mem_flatMap.mp hd
      have hinside := ih ⟨c, hc⟩ fun e he => h e (mem_preorder_of_mem_children hc he)
      exact covers_trans (h n (mem_preorder_self n) c hc) (hinside d hd)

/-- What is inside a node off the query is off the query as well. -/
theorem not_encloses_of_off (hle : left ≤ right) (h : ∀ d ∈ n.preorder, d.CoversChildren)
    (hoff : n.range.touches left right = false) : ∀ d ∈ n.preorder, ¬d.Encloses left right := by
  rintro d hd ⟨hstart, hstop⟩
  have hcovers := covers_of_mem_preorder h d hd
  simp only [Range.covers, decide_eq_true_eq] at hcovers
  simp only [Range.touches, Bool.not_eq_false', decide_eq_true_eq] at hoff
  omega

/-! Going through the nodes. -/

theorem flatMap_preorder_cons (n : Node) (rest : List Node) :
    (n :: rest).flatMap preorder = n :: (n.children ++ rest).flatMap preorder := by
  rw [List.flatMap_cons, preorder_eq, List.cons_append, List.flatMap_append]

/-- All that may come of a node that is visited. -/
theorem sight_cases {v : Verdict} (hle : left ≤ right) (h : sight left right s n = (s', v)) :
    (v = .prune ∧ s' = s ∧ n.range.touches left right = false) ∨
      (v = .stop ∧ s' = { s with answer? := some n } ∧ n.IsMeant left right) ∨
      (v = .descend ∧ ¬n.IsMeant left right ∧
        ((n.Encloses left right ∧ s' = { s with cover? := some n }) ∨
          (¬n.Encloses left right ∧ s' = s))) := by
  have hencloses : n.range.covers ⟨left, right⟩ = true ↔ n.Encloses left right := decide_eq_true_iff
  unfold sight at h
  simp only [Bool.not_eq_eq_eq_not, Bool.not_true, answers_iff hle, hencloses] at h
  split at h
  · rename_i hoff
    cases h
    exact .inl ⟨rfl, rfl, hoff⟩
  · split at h
    · rename_i hmeant
      cases h
      exact .inr (.inl ⟨rfl, rfl, hmeant⟩)
    · rename_i hmeant
      split at h <;> rename_i hcover <;> cases h
      · exact .inr (.inr ⟨rfl, hmeant, .inl ⟨hcover, rfl⟩⟩)
      · exact .inr (.inr ⟨rfl, hmeant, .inr ⟨hcover, rfl⟩⟩)

/-- The best answer of a sighting. -/
def Sighting.best? (s : Sighting) : Option Node := s.answer?.or s.cover?

/-- A walk over nodes still to be visited finds what is picked from all nodes inside them, or else
what was the best before. -/
theorem best?_walkAll (hle : left ≤ right) (pending : List Node)
    (hcovers : ∀ d ∈ pending.flatMap preorder, d.CoversChildren) (hs : s.answer? = none) :
    (walkAll (sight left right) pending s).1.best? =
      (pick? left right (pending.flatMap preorder)).or s.cover? := by
  fun_induction walkAll (sight left right) pending s with
  | case1 s => rw [Sighting.best?, hs]; rfl
  | case2 s n rest s' hvisit =>
    rcases sight_cases hle hvisit with ⟨hv, _⟩ | ⟨-, rfl, hmeant⟩ | ⟨hv, _⟩
    · cases hv
    · rw [flatMap_preorder_cons, pick?_cons_meant hmeant]
      rfl
    · cases hv
  | case3 s n rest s' hvisit ih =>
    rcases sight_cases hle hvisit with ⟨-, rfl, hoff⟩ | ⟨hv, _⟩ | ⟨hv, _⟩
    · rw [List.flatMap_cons] at hcovers ⊢
      rw [pick?_append_off (not_encloses_of_off hle
        (fun d hd => hcovers d (List.mem_append_left _ hd)) hoff)]
      exact ih (fun d hd => hcovers d (List.mem_append_right _ hd)) hs
    · cases hv
    · cases hv
  | case4 s n rest s' hvisit ih =>
    rcases sight_cases hle hvisit with ⟨hv, _⟩ | ⟨hv, _⟩ | ⟨-, hmeant, hcover⟩
    · cases hv
    · cases hv
    · rw [flatMap_preorder_cons] at hcovers ⊢
      replace ih := ih fun d hd => hcovers d (List.mem_cons_of_mem _ hd)
      rcases hcover with ⟨hencloses, rfl⟩ | ⟨hencloses, rfl⟩
      · rw [ih hs, pick?_cons_encloses hmeant hencloses, Option.or_assoc]
        rfl
      · rw [ih hs, pick?_cons_off hencloses]

/-- Leaving out what is off the query does not change the answer. -/
theorem locate?_eq_pick? {root : Node} (hle : left ≤ right)
    (hcovers : ∀ d ∈ root.descendants, d.CoversChildren) :
    root.locate? left right = pick? left right root.descendants := by
  calc root.locate? left right
      = (walkAll (sight left right) root.children {}).1.best? := rfl
    _ = (pick? left right root.descendants).or none := best?_walkAll hle root.children hcovers rfl
    _ = pick? left right root.descendants := Option.or_none

/-- The sum in the statement `a+b`. -/
def sumOfNames : Node :=
  .binary ⟨0, 3⟩ .plus 1 (.identifier ⟨0, 1⟩ "a") (.identifier ⟨2, 3⟩ "b")

/-- The operator belongs to no node but those around it, the innermost of which is found. -/
theorem locate?_eq_pick?_operator :
    let root : Node := .script ⟨0, 3⟩ [.expressionStatement ⟨0, 3⟩ sumOfNames none] []
    (∀ d ∈ root.descendants, d.CoversChildren) ∧
      root.locate? 1 2 = pick? 1 2 root.descendants ∧ root.locate? 1 2 = some sumOfNames := by
  intro root
  have hdescendants : root.descendants = [.expressionStatement ⟨0, 3⟩ sumOfNames none, sumOfNames,
      .identifier ⟨0, 1⟩ "a", .identifier ⟨2, 3⟩ "b"] := by
    simp [root, descendants, preorder_eq, children, sumOfNames]
  have hcovers : ∀ d ∈ root.descendants, d.CoversChildren := by
    simp [hdescendants, CoversChildren, children, sumOfNames, Range.covers, range]
  have hpick : root.locate? 1 2 = pick? 1 2 root.descendants :=
    locate?_eq_pick? (by decide) hcovers
  refine ⟨hcovers, hpick, ?_⟩
  rw [hpick, hdescendants]
  rfl

/-! What is picked from a list. -/

theorem pick?_eq_none_iff :
    pick? left right nodes = none ↔ ∀ n ∈ nodes, ¬n.Encloses left right := by
  rw [pick?, Option.or_eq_none_iff, List.find?_eq_none, List.getLast?_eq_none_iff,
    List.filter_eq_nil_iff]
  simp only [decide_eq_true_eq]
  refine ⟨fun h => h.2, fun h => ⟨fun n hn hmeant => h n hn hmeant.encloses, h⟩⟩

/-- What is picked is meant, or else it is the last node that goes over the query. -/
theorem pick?_eq_some (h : pick? left right nodes = some n) :
    (n ∈ nodes ∧ n.IsMeant left right) ∨
      (n.Encloses left right ∧
        ∃ before after, nodes = before ++ n :: after ∧ ∀ d ∈ after, ¬d.Encloses left right) := by
  rcases Option.or_eq_some_iff.mp h with hfind | ⟨_, hlast⟩
  · exact .inl ⟨List.mem_of_find?_eq_some hfind, by simpa using List.find?_some hfind⟩
  · obtain ⟨picked, hfilter⟩ := List.getLast?_eq_some_iff.mp hlast
    obtain ⟨before, others, rfl, _, hothers⟩ := List.filter_eq_append_iff.mp hfilter
    obtain ⟨between, after, rfl, _, hencloses, hafter⟩ := List.filter_eq_cons_iff.mp hothers
    refine .inr ⟨by simpa using hencloses, before ++ between, after, ?_, ?_⟩
    · rw [List.append_assoc]
    · simpa [List.filter_eq_nil_iff] using hafter

theorem mem_of_pick? (h : pick? left right nodes = some n) :
    n ∈ nodes ∧ n.Encloses left right := by
  rcases pick?_eq_some h with ⟨hmem, hmeant⟩ | ⟨hencloses, before, after, rfl, _⟩
  · exact ⟨hmem, hmeant.encloses⟩
  · exact ⟨List.mem_append_right _ List.mem_cons_self, hencloses⟩

/-- In a list in which `R` relates each node to those after it, every other node over the query is
related to the picked one, unless that is meant. -/
theorem pick?_related {R : Node → Node → Prop} (hnodes : nodes.Pairwise R)
    (h : pick? left right nodes = some n) (hmeant : ¬n.IsMeant left right) (hd : d ∈ nodes)
    (hencloses : d.Encloses left right) : d = n ∨ R d n := by
  rcases pick?_eq_some h with ⟨_, hn⟩ | ⟨_, before, after, rfl, hafter⟩
  · exact absurd hn hmeant
  · obtain ⟨_, _, hbefore⟩ := List.pairwise_append.mp hnodes
    rcases List.mem_append.mp hd with hd | hd
    · exact .inr (hbefore d hd n List.mem_cons_self)
    · rcases List.mem_cons.mp hd with hd | hd
      · exact .inl hd
      · exact absurd hencloses (hafter d hd)

end ScriptTree.Node
