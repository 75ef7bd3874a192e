import ScriptTree.Node.Walk

/-!
The walk with a list of pending nodes is the recursive walk in pre-order. `Node.tour` visits a node
and then, where the visitor descends, the children one after the other until one of them ends the
tour. What a walk does with its pending nodes is what tours of them do in turn, whatever is pending
after them, so that both make the same calls, leave the same state and have the same result.
-/
namespace ScriptTree

/-- What going through some nodes comes to. -/
structure Tour (σ : Type) where
  /-- The nodes that were visited, in order, each with the state of the visitor at its call. -/
  calls : List (σ × Node)
  /-- The state of the visitor at the end. -/
  state : σ
  /-- No visit ended the tour. -/
  completed : Bool

namespace Tour
variable {α β σ : Type}

/-- A tour with a call made before it. -/
def after (t : Tour σ) (call : σ × Node) : Tour σ := { t with calls := call :: t.calls }

/-- A tour and then, unless a visit ended it, the tour that `next` makes from its last state. -/
def andThen (t : Tour σ) (next : σ → Tour σ) : Tour σ :=
  if t.completed then { next t.state with calls := t.calls ++ (next t.state).calls } else t

/-- The tours that `go` makes of the members of a list, from first to last until one is ended. -/
def each (go : α → σ → Tour σ) : List α → σ → Tour σ
  | [], s => ⟨[], s, true⟩
  | a :: rest, s => (go a s).andThen (each go rest)

theorem each_map (go : β → σ → Tour σ) (f : α → β) (items : List α) (s : σ) :
    each go (items.map f) s = each (fun a => go (f a)) items s := by
  induction items generalizing s with
  | nil => rfl
  | cons a rest ih => simp only [List.map_cons, each, andThen, ih]

end Tour

namespace Node
variable {σ : Type} {visit : σ → Node → σ × Verdict}

/-- Visit a node and, unless the visitor prunes it or stops there, those inside it by the same
rule. -/
def tour (visit : σ → Node → σ × Verdict) (n : Node) (s : σ) : Tour σ :=
  match visit s n with
  | (s', .stop) => ⟨[(s, n)], s', false⟩
  | (s', .prune) => ⟨[(s, n)], s', true⟩
  | (s', .descend) => (Tour.each (fun c => tour visit c.1) n.children.attach s').after (s, n)
termination_by sizeOf n
decreasing_by exact sizeOf_lt_of_mem_children c.2

theorem each_attach_tour (nodes : List Node) (s : σ) :
    Tour.each (fun c : {c // c ∈ nodes} => tour visit c.1) nodes.attach s =
      Tour.each (tour visit) nodes s := by
  rw [← Tour.each_map (tour visit) Subtype.val, List.attach_map_subtype_val]

theorem tour_stop {n : Node} {s s' : σ} (h : visit s n = (s', .stop)) :
    tour visit n s = ⟨[(s, n)], s', false⟩ := by
  rw [tour, h]

theorem tour_prune {n : Node} {s s' : σ} (h : visit s n = (s', .prune)) :
    tour visit n s = ⟨[(s, n)], s', true⟩ := by
  rw [tour, h]

theorem tour_descend {n : Node} {s s' : σ} (h : visit s n = (s', .descend)) :
    tour visit n s = (Tour.each (tour visit) n.children s').after (s, n) := by
  rw [tour, h]
  exact congrArg (Tour.after · (s, n)) (each_attach_tour n.children s')

/-- What is true of every node if it is true of one whenever it is true of those directly inside. -/
theorem induction_on_children {P : Node → Prop} (h : ∀ n, (∀ c ∈ n.children, P c) → P n)
    (n : Node) : P n :=
  h n fun c _ => induction_on_children h c
termination_by sizeOf n
decreasing_by exact sizeOf_lt_of_mem_children ‹_›

/-- The nodes that a walk has pending are toured in turn, if this is so of each of them. -/
theorem walkAll_each {nodes : List Node}
    (h : ∀ n ∈ nodes, ∀ rest s, walkAll visit (n :: rest) s =
      if (tour visit n s).completed then walkAll visit rest (tour visit n s).state
      else ((tour visit n s).state, false))
    (rest : List Node) (s : σ) :
    walkAll visit (nodes ++ rest) s =
      if (Tour.each (tour visit) nodes s).completed then
        walkAll visit rest (Tour.each (tour visit) nodes s).state
      else ((Tour.each (tour visit) nodes s).state, false) := by
  induction nodes generalizing s with
  | nil => rfl
  | cons n nodes ih =>
    obtain ⟨hn, hnodes⟩ := List.forall_mem_cons.mp h
    rw [List.cons_append, hn, Tour.each, Tour.andThen]
    cases hcompleted : (tour visit n s).completed with
    | true => simp only [if_true, ih hnodes]
    | false => simp [hcompleted]

/-- A pending node is toured, and the walk goes on with the nodes pending after it unless that has
ended it. -/
theorem walkAll_cons (n : Node) (rest : List Node) (s : σ) :
    walkAll visit (n :: rest) s =
      if (tour visit n s).completed then walkAll visit rest (tour visit n s).state
      else ((tour visit n s).state, false) := by
  induction n using induction_on_children generalizing rest s with
  | h n ih =>
    rw [walkAll]
    split
    · rename_i s' hvisit
      rw [tour_stop hvisit]
      rfl
    · rename_i s' hvisit
      rw [tour_prune hvisit]
      rfl
    · rename_i s' hvisit
      rw [tour_descend hvisit]
      exact walkAll_each ih rest s'

theorem walk_eq (root : Node) (s : σ) :
    walk visit root s = ((tour visit root s).state, (tour visit root s).completed) := by
  rw [walk, walkAll_cons]
  cases hcompleted : (tour visit root s).completed with
  | true => rw [if_pos rfl, walkAll]
  | false => rfl

/-! The calls of the visitor. -/

/-- The visitor that does the same and keeps a list of its calls. -/
def recording (visit : σ → Node → σ × Verdict) (s : σ × List (σ × Node)) (n : Node) :
    (σ × List (σ × Node)) × Verdict :=
  (((visit s.1 n).1, s.2 ++ [(s.1, n)]), (visit s.1 n).2)

/-- What a visitor does of which the calls are kept is what it does by itself. -/
structure Records (visit : σ → Node → σ × Verdict) (log : List (σ × Node)) (t : Tour σ)
    (u : Tour (σ × List (σ × Node))) : Prop where
  state_eq : u.state = (t.state, log ++ t.calls)
  completed_eq : u.completed = t.completed

theorem each_records {nodes : List Node}
    (h : ∀ n ∈ nodes, ∀ s log,
      Records visit log (tour visit n s) (tour (recording visit) n (s, log)))
    (s : σ) (log : List (σ × Node)) :
    Records visit log (Tour.each (tour visit) nodes s)
      (Tour.each (tour (recording visit)) nodes (s, log)) := by
  induction nodes generalizing s log with
  | nil => exact ⟨by simp [Tour.each], rfl⟩
  | cons n nodes ih =>
    obtain ⟨hn, hnodes⟩ := List.forall_mem_cons.mp h
    have hfirst := hn s log
    simp only [Tour.each, Tour.andThen, hfirst.completed_eq]
    split
    · have hrest := ih hnodes (tour visit n s).state (log ++ (tour visit n s).calls)
      rw [← hfirst.state_eq] at hrest
      refine ⟨?_, hrest.completed_eq⟩
      rw [hrest.state_eq, List.append_assoc]
    · exact hfirst

theorem tour_records (n : Node) (s : σ) (log : List (σ × Node)) :
    Records visit log (tour visit n s) (tour (recording visit) n (s, log)) := by
  induction n using induction_on_children generalizing s log with
  | h n ih =>
    rcases hvisit : visit s n with ⟨s', verdict⟩
    have hrecording : recording visit (s, log) n = ((s', log ++ [(s, n)]), verdict) := by
      rw [recording, hvisit]
    cases verdict with
    | stop =>
      rw [tour_stop hvisit, tour_stop hrecording]
      exact ⟨rfl, rfl⟩
    | prune =>
      rw [tour_prune hvisit, tour_prune hrecording]
      exact ⟨rfl, rfl⟩
    | descend =>
      rw [tour_descend hvisit, tour_descend hrecording]
      have hinside := each_records ih s' (log ++ [(s, n)])
      refine ⟨?_, hinside.completed_eq⟩
      simp [Tour.after, hinside.state_eq]

/-- A walk with a list of pending nodes makes the calls of the recursive walk in pre-order, leaves
the visitor in the same state, and has the same result. -/
theorem walk_eq_tour (visit : σ → Node → σ × Verdict) (root : Node) (s : σ) :
    walk visit root s = ((tour visit root s).state, (tour visit root s).completed) ∧
      (walk (recording visit) root (s, [])).1.2 = (tour visit root s).calls := by
  have hrecords : Records visit [] (tour visit root s) (tour (recording visit) root (s, [])) :=
    tour_records root s []
  refine ⟨walk_eq root s, ?_⟩
  rw [walk_eq, hrecords.state_eq, List.nil_append]

end Node
end ScriptTree
