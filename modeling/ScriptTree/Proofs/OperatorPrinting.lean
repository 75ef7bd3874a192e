import ScriptTree.Proofs.CallAllowance

/-!
Printing and reading operators. A tree of binary operators over names is written with parentheses
only where its shape needs them, and the script that is read from it is that tree, with a node for
each pair of parentheses. The reader climbs precedences; what it does on a text of any length is
followed by going on from where its loop stands after the left operand.
-/
namespace ScriptTree

/-- A tree of binary operators over names. -/
inductive OperatorTree where
  | name (token : Token) (isName : token.kind = .identifier)
  | apply (operator : Token) (precedence : Precedence)
      (binds : operator.kind.binaryPrecedence? = some precedence) (left right : OperatorTree)

/-- A tree of binary operators over names, with its parentheses. -/
inductive Grouped where
  | name (token : Token) (isName : token.kind = .identifier)
  | paren (opening closing : Token) (opens : opening.kind = .openParen)
      (closes : closing.kind = .closeParen) (inside : Grouped)
  | apply (operator : Token) (precedence : Precedence)
      (binds : operator.kind.binaryPrecedence? = some precedence) (left right : Grouped)

/-- The tokens of a pair of parentheses. -/
structure Parens where
  opening : Token
  closing : Token
  opens : opening.kind = .openParen
  closes : closing.kind = .closeParen

def Parens.around (parens : Parens) (needed : Bool) (t : Grouped) : Grouped :=
  if needed then .paren parens.opening parens.closing parens.opens parens.closes t else t

/-- The two operands of an operator. -/
inductive Side where
  | left
  | right

namespace OperatorTree

/-- The precedence of the operator at the root. -/
def precedence? : OperatorTree → Option Precedence
  | name _ _ => none
  | apply _ precedence _ _ _ => some precedence

/-- The tree with parentheses where they are needed: around a left operand of a lower precedence
than the operator, and around a right operand of a lower or the same one. Each operand has
parentheses of its own, found by the way to it from the root. -/
def grouped : OperatorTree → (List Side → Parens) → Grouped
  | name token isName, _ => .name token isName
  | apply operator precedence binds left right, parens =>
    .apply operator precedence binds
      ((parens [.left]).around (left.precedence?.any (·.level < precedence.level))
        (left.grouped fun way => parens (.left :: way)))
      ((parens [.right]).around (right.precedence?.any (·.level ≤ precedence.level))
        (right.grouped fun way => parens (.right :: way)))

end OperatorTree

namespace Grouped

/-- The precedence of the operator at the root, if nothing is around it. -/
def precedence? : Grouped → Option Precedence
  | apply _ precedence _ _ _ => some precedence
  | _ => none

/-- The tokens in the order in which they are written. -/
def tokens : Grouped → List Token
  | name token _ => [token]
  | paren opening closing _ _ inside => opening :: (inside.tokens ++ [closing])
  | apply operator _ _ left right => left.tokens ++ operator :: right.tokens

/-- How deep parentheses nest. -/
def nesting : Grouped → Nat
  | name _ _ => 0
  | paren _ _ _ _ inside => inside.nesting + 1
  | apply _ _ _ left right => max left.nesting right.nesting

/-- The concrete tree, written from place `start` on. -/
def concrete (start : Nat) : Grouped → Concrete
  | name token _ => .leaf .identifier start token.text
  | paren _ _ _ _ inside =>
    .inner .paren start (some (start + 1 + inside.tokens.length)) [inside.concrete (start + 1)]
  | apply operator _ _ left right =>
    .inner operator.kind start (some (start + left.tokens.length + right.tokens.length))
      [left.concrete start, right.concrete (start + left.tokens.length + 1)]

/-- Operands bind tightly enough to stand where they do. -/
def Fits : Grouped → Prop
  | name _ _ => True
  | paren _ _ _ _ inside => inside.Fits
  | apply _ precedence _ left right =>
    (∀ q, left.precedence? = some q → precedence.level ≤ q.level) ∧
      (∀ q, right.precedence? = some q → precedence.level < q.level) ∧ left.Fits ∧ right.Fits

theorem tokens_pos (t : Grouped) : 0 < t.tokens.length := by
  cases t with
  | name => exact Nat.one_pos
  | paren => exact Nat.succ_pos _
  | apply => simp only [tokens, List.length_append, List.length_cons]; omega

theorem concrete_start (t : Grouped) (start : Nat) : (t.concrete start).start = start := by
  cases t <;> rfl

theorem concrete_isEmpty (t : Grouped) (start : Nat) : (t.concrete start).isEmpty = false := by
  cases t <;> rfl

/-- Every operator binds more tightly than the loosest level. -/
theorem lowest_lt (t : Grouped) (q : Precedence) (h : t.precedence? = some q) :
    Precedence.lowest.level < q.level := by
  cases t with
  | name => cases h
  | paren => cases h
  | apply operator precedence binds =>
    obtain rfl : precedence = q := Option.some.inj h
    unfold Kind.binaryPrecedence? at binds
    split at binds <;> cases binds <;> decide

/-- A tree begins with a name or a parenthesis. -/
theorem head_kind (t : Grouped) :
    ∃ first, t.tokens.head? = some first ∧
      (first.kind = .identifier ∨ first.kind = .openParen) := by
  induction t with
  | name token isName => exact ⟨token, rfl, .inl isName⟩
  | paren opening _ opens => exact ⟨opening, rfl, .inr opens⟩
  | apply _ _ _ left _ ihl =>
    obtain ⟨first, hfirst, hkind⟩ := ihl
    exact ⟨first, by simp [tokens, hfirst], hkind⟩

end Grouped

theorem Parens.fits_around (parens : Parens) (needed : Bool) {t : Grouped} (h : t.Fits) :
    (parens.around needed t).Fits := by
  cases needed <;> exact h

namespace OperatorTree

theorem precedence?_grouped (t : OperatorTree) (parens : List Side → Parens) :
    (t.grouped parens).precedence? = t.precedence? := by
  cases t <;> rfl

/-- Parentheses stand wherever an operand would not bind tightly enough. -/
theorem precedence?_around {t : OperatorTree} {parens : List Side → Parens} {pair : Parens}
    {test : Precedence → Bool} {q : Precedence}
    (h : (pair.around (t.precedence?.any test) (t.grouped parens)).precedence? = some q) :
    test q = false := by
  cases hneeded : t.precedence?.any test with
  | true =>
    rw [hneeded] at h
    cases h
  | false =>
    rw [hneeded] at h
    have hq : t.precedence? = some q := (t.precedence?_grouped parens).symm.trans h
    simpa [hq] using hneeded

theorem fits_grouped (t : OperatorTree) (parens : List Side → Parens) :
    (t.grouped parens).Fits := by
  induction t generalizing parens with
  | name => trivial
  | apply _ precedence _ left right ihl ihr =>
    refine ⟨fun q hq => ?_, fun q hq => ?_, Parens.fits_around _ _ (ihl _),
      Parens.fits_around _ _ (ihr _)⟩
    · simpa using precedence?_around hq
    · simpa using precedence?_around hq

end OperatorTree

namespace Production
variable {α β : Type} {input : Input} {c c₁ c' : Cursor} {a : α} {b : β} {k : Kind}

/-- Production `p` gives `a` and leaves cursor `c'`, unless an allowance runs out. -/
def Leads (p : Production α) (input : Input) (c : Cursor) (a : α) (c' : Cursor) : Prop :=
  Runs p input c a c' ∨ ∃ c₁, p input c = .error .exhausted c₁

theorem leads_exhausted : Leads (throw .exhausted) input c a c' := .inr ⟨c, rfl⟩

theorem leads_pure (a : α) : Leads (pure a) input c a c := .inl rfl

theorem Leads.bind {p : Production α} {f : α → Production β} (hp : Leads p input c a c₁)
    (hf : Leads (f a) input c₁ b c') : Leads (p >>= f) input c b c' := by
  obtain hp | ⟨c₂, hp⟩ := hp
  · obtain hf | ⟨c₂, hf⟩ := hf
    · exact .inl (hp.andThen hf)
    · refine .inr ⟨c₂, ?_⟩
      change (p input >>= fun a => f a input) c = _
      simp only [Bind.bind, EStateM.bind]
      rw [hp]
      exact hf
  · refine .inr ⟨c₂, ?_⟩
    change (p input >>= fun a => f a input) c = _
    simp only [Bind.bind, EStateM.bind]
    rw [hp]

theorem Leads.runs {p : Production α} {Q : α → Cursor → Prop} (h : Leads p input c a c')
    (hp : Settles p input c Q) : Runs p input c a c' := by
  obtain h | ⟨c₁, h⟩ := h
  · exact h
  · exact absurd h hp.not_exhausted

theorem Leads.bind_current {f : Kind → Production β} (hk : input.kindAt c.pos = k)
    (h : Leads (f k) input c b c') : Leads (current >>= f) input c b c' := by
  subst hk
  exact h

theorem Leads.bind_peek {f : Kind → Production β} {ahead : Nat}
    (h : Leads (f (input.kindAt (c.pos + ahead))) input c b c') :
    Leads (peek ahead >>= f) input c b c' := h

theorem Leads.bind_sees_not {f : Bool → Production β} (hk : input.kindAt c.pos ≠ k)
    (h : Leads (f false) input c b c') : Leads (sees k >>= f) input c b c' := by
  change Leads (f (input.kindAt c.pos == k)) input c b c'
  rw [beq_false_of_ne hk]
  exact h

theorem Leads.bind_atEnd {f : Bool → Production β} {found : Bool}
    (hfound : decide (input.significant.size ≤ c.pos) = found) (h : Leads (f found) input c b c') :
    Leads (atEnd >>= f) input c b c' := by
  subst hfound
  exact h

theorem Leads.bind_advance {f : Nat → Production β} (hpos : c.pos < input.significant.size)
    (h : Leads (f (input.indexAt c.pos)) input c.next b c') : Leads (advance >>= f) input c b c' :=
  Leads.bind (.inl (runs_advance hpos)) h

theorem leads_skip (hpos : c.pos < input.significant.size) :
    Leads (discard advance) input c () c.next :=
  .bind (.inl (runs_advance hpos)) (leads_pure ())

theorem leads_eat_not (hk : input.kindAt c.pos ≠ k) : Leads (eat k) input c false c :=
  .bind_sees_not hk (leads_pure false)

theorem leads_expect (h : input.Sees c.pos k) : Leads (expect k) input c () c.next := by
  change Leads (if input.kindAt c.pos == k then discard advance else _) input c () c.next
  rw [Input.kindAt_eq_of_sees h, beq_self_eq_true, if_pos rfl]
  exact leads_skip h.lt_size

theorem Leads.nested {body : Production α} {i j d : Nat} {e e' : Diagnostics}
    (hlimit : d < input.limit) (h : Leads body input ⟨i, d + 1, e⟩ a ⟨j, d + 1, e'⟩) :
    Leads (nested body) input ⟨i, d, e⟩ a ⟨j, d, e'⟩ := by
  have henter : Runs enter input ⟨i, d, e⟩ () ⟨i, d + 1, e⟩ := by
    change Runs (if input.limit < d + 1 then _ else pure ()) input ⟨i, d + 1, e⟩ () ⟨i, d + 1, e⟩
    rw [if_neg (Nat.not_lt_of_le hlimit)]
    rfl
  refine Leads.bind (.inl henter) ?_
  obtain h | ⟨c₁, h⟩ := h
  · refine .inl ?_
    unfold Runs at h ⊢
    rw [leaving, h]
    rfl
  · refine .inr ⟨{ c₁ with depth := c₁.depth - 1 }, ?_⟩
    rw [leaving, h]

/-- The last turn of a loop. -/
theorem Leads.last {step : α → Production (α ⊕ β)} (h : Leads (step a) input c (.inr b) c')
    (n : Nat) : Leads (repeating step n a) input c b c' := by
  cases n with
  | zero => exact leads_exhausted
  | succ n => exact h.bind (leads_pure b)

/-- A turn of a loop that is not the last. -/
theorem Leads.turn {step : α → Production (α ⊕ β)} (next : α) (c₁ : Cursor)
    (h : Leads (step a) input c (.inl next) c₁)
    (hnext : ∀ n, Leads (repeating step n next) input c₁ b c') (n : Nat) :
    Leads (repeating step n a) input c b c' := by
  cases n with
  | zero => exact leads_exhausted
  | succ n => exact h.bind (hnext n)

theorem Leads.iterate {step : α → Production (α ⊕ β)}
    (h : ∀ n, Leads (repeating step n a) input c b c') : Leads (iterate a step) input c b c' :=
  h (input.count + 1)

end Production

namespace Input

/-- The significant tokens from rank `i` on are the given ones, and no token is hidden. -/
def Shows (input : Input) (i : Nat) (tokens : List Token) : Prop :=
  ∀ k t, tokens[k]? = some t → input.significant[i + k]? = some ⟨i + k, t⟩

variable {input : Input} {i : Nat} {tokens tokens' : List Token} {t : Token}

theorem Shows.left (h : input.Shows i (tokens ++ tokens')) : input.Shows i tokens := by
  intro k t ht
  apply h k t
  rw [List.getElem?_append_left (List.getElem?_eq_some_iff.mp ht).1]
  exact ht

theorem Shows.right (h : input.Shows i (tokens ++ tokens')) :
    input.Shows (i + tokens.length) tokens' := by
  intro k t ht
  rw [Nat.add_assoc]
  apply h (tokens.length + k) t
  rw [List.getElem?_append_right (Nat.le_add_right _ _), Nat.add_sub_cancel_left]
  exact ht

theorem Shows.tail (h : input.Shows i (t :: tokens)) : input.Shows (i + 1) tokens := by
  have h : input.Shows i ([t] ++ tokens) := h
  exact h.right

theorem Shows.head (h : input.Shows i (t :: tokens)) :
    input.significant[i]? = some ⟨i, t⟩ := h 0 t rfl

theorem Shows.kindAt (h : input.Shows i (t :: tokens)) : input.kindAt i = t.kind := by
  rw [Input.kindAt, h.head]

theorem Shows.indexAt (h : input.Shows i (t :: tokens)) : input.indexAt i = i := by
  rw [Input.indexAt, h.head]

theorem Shows.leafAt (h : input.Shows i (t :: tokens)) (kind : Kind) :
    input.leafAt i kind = .leaf kind i t.text := by
  rw [Input.leafAt, h.indexAt, Input.textAt, h.head]

/-- The node of tokens that end at place `last`. -/
theorem Shows.nodeAt (h : input.Shows i tokens) {last : Nat} (hlast : last + 1 = i + tokens.length)
    (hle : i ≤ last) (kind : Kind) (children : List Concrete) :
    input.nodeAt (last + 1) kind i children = .inner kind i (some last) children := by
  obtain ⟨k, rfl⟩ := Nat.exists_eq_add_of_le hle
  have hk : k < tokens.length := by omega
  have hlast := h k tokens[k] (List.getElem?_eq_getElem hk)
  have hindex : input.indexAt (i + k) = i + k := by rw [Input.indexAt, hlast]
  rw [Input.nodeAt, lastBefore_succ (Array.getElem?_eq_some_iff.mp hlast).1, hindex,
    Option.filter_some_pos (by simp)]

theorem significant_ofTokens {tokens : List Token} (h : ∀ t ∈ tokens, t.isHidden = false)
    (lines : LineMap) (limit : Nat) : (ofTokens tokens.toArray lines limit).significant =
      tokens.toArray.mapIdx fun index token => ⟨index, token⟩ := by
  unfold ofTokens
  dsimp only
  rw [Array.filter_eq_self]
  intro x hx
  obtain ⟨k, hk, rfl⟩ := Array.mem_mapIdx.mp hx
  have hmem : tokens.toArray[k] ∈ tokens := by simp
  simpa using h _ hmem

theorem shows_ofTokens {tokens : List Token} (h : ∀ t ∈ tokens, t.isHidden = false)
    (lines : LineMap) (limit : Nat) : (ofTokens tokens.toArray lines limit).Shows 0 tokens := by
  intro k t ht
  rw [significant_ofTokens h, Nat.zero_add, Array.getElem?_mapIdx]
  simpa using ht

end Input

/-- What may stand after an operand: another operator, a closing parenthesis, or nothing. -/
def Kind.followsOperand (k : Kind) : Bool :=
  k == .closeParen || k == .endOfFile || k.binaryPrecedence?.isSome

/-- An operator of kind `k` does not bind more tightly than those of a level. -/
def Kind.BindsAtMost (k : Kind) (floor : Precedence) : Prop :=
  ∀ q, k.binaryPrecedence? = some q → q.level ≤ floor.level

theorem Kind.bindsAtMost_of_none {k : Kind} (h : k.binaryPrecedence? = none) (floor : Precedence) :
    k.BindsAtMost floor := by
  intro q hq
  cases h.symm.trans hq

/-- What may begin an operand. -/
def Kind.beginsOperand (k : Kind) : Bool := k == .identifier || k == .openParen

namespace Production
variable {g : Grammar} {input : Input} {c c' : Cursor} {i j d : Nat} {e : Diagnostics}
  {t left : Concrete} {k : Kind}

theorem trailingOperator?_of_follows (h : k.followsOperand = true) :
    trailingOperator? k = none := by
  revert h
  cases k <;> decide

theorem leadingOperator?_of_begins (h : k.beginsOperand = true) :
    leadingOperator? k = none ∧ k ≠ .newKeyword ∧ k ≠ .unknown ∧ k ≠ .yieldKeyword := by
  revert h
  cases k <;> decide

/-- An operand to which nothing is added is read by the rules around it. -/
theorem leads_unary (hoperand : Leads (operand g) input c t c')
    (hbegins : (input.kindAt c.pos).beginsOperand = true)
    (hfollows : (input.kindAt c'.pos).followsOperand = true) :
    Leads (unary g) input c t c' := by
  obtain ⟨hleading, hnew, hunknown, -⟩ := leadingOperator?_of_begins hbegins
  have hmember : Leads (member g true) input c t c' := by
    unfold member
    refine .bind_sees_not hnew ?_
    refine .bind (.bind_sees_not hunknown hoperand) ?_
    refine .iterate (.last ?_)
    refine .bind_current rfl ?_
    split
    case h_6 => exact leads_pure _
    all_goals
      rename_i hk
      rw [hk] at hfollows
      cases hfollows
  unfold unary
  refine .bind_current rfl ?_
  rw [hleading]
  refine hmember.bind (.bind_current rfl ?_)
  rw [trailingOperator?_of_follows hfollows]
  exact leads_pure t

theorem leads_name (hname : input.kindAt c.pos = .identifier) :
    Leads (operand g) input c (input.leafAt c.pos .identifier) c.next := by
  unfold operand
  refine .bind_current hname ?_
  exact .inl (runs_leaf .identifier (Input.sees_of_kindAt hname nofun).lt_size)

/-- An expression without commas that ends where an operand does. -/
theorem leads_expression {noIn : Bool} (h : Leads (g.assignment noIn) input c t c')
    (hcomma : input.kindAt c'.pos ≠ .comma) : Leads (expression g noIn) input c t c' :=
  h.bind ((leads_eat_not hcomma).bind (leads_pure t))

theorem leads_paren (hopens : input.kindAt i = .openParen)
    (hinside : Leads (g.assignment false) input ⟨i + 1, d, e⟩ t ⟨j, d, e⟩)
    (hcloses : input.Sees j .closeParen) :
    Leads (operand g) input ⟨i, d, e⟩
      (input.nodeAt (j + 1) .paren (input.indexAt i) [t]) ⟨j + 1, d, e⟩ := by
  have hcomma : input.kindAt j ≠ .comma := by
    rw [Input.kindAt_eq_of_sees hcloses]
    nofun
  unfold operand
  refine .bind_current hopens ?_
  refine .bind_advance (Input.sees_of_kindAt hopens nofun).lt_size ?_
  refine (leads_expression hinside hcomma).bind ?_
  refine (leads_expect hcloses).bind ?_
  exact .inl rfl

theorem leads_assignment (hlimit : d < input.limit)
    (hbegins : (input.kindAt i).beginsOperand = true)
    (hbinary : Leads (binary g .lowest false) input ⟨i, d + 1, e⟩ t ⟨j, d + 1, e⟩)
    (hends : input.kindAt j = .closeParen ∨ input.kindAt j = .endOfFile) :
    Leads (assignment g false) input ⟨i, d, e⟩ t ⟨j, d, e⟩ := by
  obtain ⟨hquestion, hassignment⟩ : input.kindAt j ≠ .question ∧
      (input.kindAt j).isAssignmentOperator = false := by
    obtain hk | hk := hends <;> rw [hk] <;> decide
  unfold assignment
  refine .nested hlimit ?_
  refine .bind_sees_not (leadingOperator?_of_begins hbegins).2.2.2 ?_
  refine Leads.bind (hbinary.bind ((leads_eat_not hquestion).bind (leads_pure t))) ?_
  refine .bind_current rfl ?_
  rw [hassignment]
  exact leads_pure t

/-- A turn of the loop over binary operators. -/
def binaryTurn (g : Grammar) (floor : Precedence) (noIn : Bool) (left : Concrete) :
    Production (Concrete ⊕ Concrete) := do
  let operator ← current
  if noIn && operator == .inKeyword then return .inr left
  match operator.binaryPrecedence? with
  | none => return .inr left
  | some precedence =>
    if precedence.level ≤ floor.level then return .inr left
    discard advance
    let right ← g.binary precedence noIn
    return .inl (← node operator left.start [left, right])

theorem leads_binary {floor : Precedence} {noIn : Bool} {first : Concrete} {c₁ : Cursor}
    (hfirst : Leads (unary g) input c first c₁)
    (h : ∀ n, Leads (repeating (binaryTurn g floor noIn) n first) input c₁ t c') :
    Leads (binary g floor noIn) input c t c' :=
  hfirst.bind (.iterate h)

/-- The loop stops before what does not bind more tightly. -/
theorem leads_binary_stop {floor : Precedence} (h : (input.kindAt c.pos).BindsAtMost floor)
    (n : Nat) : Leads (repeating (binaryTurn g floor false) n left) input c left c := by
  refine .last ?_ n
  refine .bind_current rfl ?_
  rw [Bool.false_and, if_neg Bool.false_ne_true]
  split
  · exact leads_pure _
  · rename_i precedence hk
    rw [if_pos (h precedence hk)]
    exact leads_pure _

/-- The loop goes on with an operator that binds more tightly. -/
theorem leads_binary_turn {floor precedence : Precedence} {right : Concrete}
    (hk : (input.kindAt i).binaryPrecedence? = some precedence)
    (hlevel : floor.level < precedence.level)
    (hright : Leads (g.binary precedence false) input ⟨i + 1, d, e⟩ right ⟨j, d, e⟩)
    (h : ∀ n, Leads (repeating (binaryTurn g floor false) n
      (input.nodeAt j (input.kindAt i) left.start [left, right])) input ⟨j, d, e⟩ t c') (n : Nat) :
    Leads (repeating (binaryTurn g floor false) n left) input ⟨i, d, e⟩ t c' := by
  have hpos : i < input.significant.size := by
    refine (Input.sees_of_kindAt rfl ?_).lt_size
    intro hend
    rw [hend] at hk
    cases hk
  refine .turn _ _ ?_ h n
  refine .bind_current rfl ?_
  rw [Bool.false_and, if_neg Bool.false_ne_true, hk]
  dsimp only
  rw [if_neg (Nat.not_le_of_lt hlevel)]
  refine (leads_skip hpos).bind ?_
  refine hright.bind ?_
  exact .inl rfl

end Production

namespace Grouped
open Production
variable {input : Input} {e : Diagnostics}

theorem begins_kindAt (t : Grouped) {i : Nat} (h : input.Shows i t.tokens) :
    (input.kindAt i).beginsOperand = true := by
  obtain ⟨first, hfirst, hkind⟩ := t.head_kind
  obtain ⟨rest, htokens⟩ := List.head?_eq_some_iff.mp hfirst
  rw [htokens] at h
  rw [h.kindAt]
  obtain hkind | hkind := hkind <;> rw [hkind] <;> rfl

/-- The tree is read by the loop over operators: it is enough to go on from where the loop stands
after it. The operators before it bind less tightly than its own, and those after it no more
tightly. -/
def Reads (input : Input) (e : Diagnostics) (t : Grouped) : Prop :=
  ∀ {n i d : Nat} {floor : Precedence}, input.Shows i t.tokens → d + t.nesting ≤ input.limit →
    (∀ q, t.precedence? = some q → floor.level < q.level) →
    (input.kindAt (i + t.tokens.length)).followsOperand = true →
    (∀ q, t.precedence? = some q → (input.kindAt (i + t.tokens.length)).BindsAtMost q) →
    ∀ {result : Concrete} {c' : Cursor},
      (∀ m, Leads (repeating (binaryTurn (.within n) floor false) m (t.concrete i)) input
        ⟨i + t.tokens.length, d, e⟩ result c') →
      Leads (binary (.within n) floor false) input ⟨i, d, e⟩ result c'

/-- A tree that is not followed by an operator is read one level deeper, with the loosest
operators. -/
theorem Reads.assignment {t : Grouped} (h : t.Reads input e) {i d : Nat}
    (hshows : input.Shows i t.tokens) (hlimit : d + 1 + t.nesting ≤ input.limit)
    (hends : input.kindAt (i + t.tokens.length) = .closeParen ∨
      input.kindAt (i + t.tokens.length) = .endOfFile) (n : Nat) :
    Leads ((Grammar.within n).assignment false) input ⟨i, d, e⟩ (t.concrete i)
      ⟨i + t.tokens.length, d, e⟩ := by
  have hfollows : (input.kindAt (i + t.tokens.length)).followsOperand = true := by
    obtain hk | hk := hends <;> rw [hk] <;> rfl
  have hstop (floor : Precedence) :
      (input.kindAt (i + t.tokens.length)).BindsAtMost floor := by
    apply Kind.bindsAtMost_of_none
    obtain hk | hk := hends <;> rw [hk] <;> rfl
  cases n with
  | zero => exact leads_exhausted
  | succ n =>
    refine leads_assignment (g := .within n) (by omega) (t.begins_kindAt hshows) ?_ hends
    exact h hshows (by omega) t.lowest_lt hfollows (fun q _ => hstop q)
      (leads_binary_stop (hstop _))

/-- A right operand is read up to what does not bind more tightly than its operator. -/
theorem Reads.binary {t : Grouped} (h : t.Reads input e) {i d : Nat} {precedence : Precedence}
    (hshows : input.Shows i t.tokens) (hlimit : d + t.nesting ≤ input.limit)
    (hbinds : ∀ q, t.precedence? = some q → precedence.level < q.level)
    (hfollows : (input.kindAt (i + t.tokens.length)).followsOperand = true)
    (hstop : (input.kindAt (i + t.tokens.length)).BindsAtMost precedence) (n : Nat) :
    Leads ((Grammar.within n).binary precedence false) input ⟨i, d, e⟩ (t.concrete i)
      ⟨i + t.tokens.length, d, e⟩ := by
  cases n with
  | zero => exact leads_exhausted
  | succ n =>
    refine h (n := n) hshows hlimit hbinds hfollows ?_ (leads_binary_stop hstop)
    intro q hq r hr
    exact Nat.le_trans (hstop r hr) (Nat.le_of_lt (hbinds q hq))

theorem reads_name (token : Token) (isName : token.kind = .identifier) :
    (name token isName).Reads input e := by
  intro n i d floor hshows _ _ hfollows _ result c' h
  have hname : input.kindAt i = .identifier := hshows.kindAt.trans isName
  refine leads_binary (leads_unary (leads_name hname) ?_ hfollows) ?_
  · exact begins_kindAt (.name token isName) hshows
  · rw [hshows.leafAt]
    exact h

theorem reads_paren {opening closing : Token} (opens : opening.kind = .openParen)
    (closes : closing.kind = .closeParen) {inside : Grouped} (hinside : inside.Reads input e) :
    (paren opening closing opens closes inside).Reads input e := by
  intro n i d floor hshows hlimit _ hfollows _ result c' h
  have hclosing : input.Shows (i + 1 + inside.tokens.length) [closing] := hshows.tail.right
  have hcloses : input.kindAt (i + 1 + inside.tokens.length) = .closeParen :=
    hclosing.kindAt.trans closes
  have hend : i + (paren opening closing opens closes inside).tokens.length =
      i + 1 + inside.tokens.length + 1 := by
    simp only [tokens, List.length_cons, List.length_append, List.length_nil]
    omega
  rw [hend] at hfollows h
  rw [nesting] at hlimit
  have hassignment := hinside.assignment (d := d) hshows.tail.left (by omega) (.inl hcloses) n
  have hoperand := leads_paren (hshows.kindAt.trans opens) hassignment
    (Input.sees_of_kindAt hcloses nofun)
  have hnode := hshows.nodeAt hend.symm (by omega) .paren [inside.concrete (i + 1)]
  refine leads_binary (leads_unary hoperand ?_ hfollows) ?_
  · exact begins_kindAt (.paren opening closing opens closes inside) hshows
  · rw [hshows.indexAt, hnode]
    exact h

theorem reads_apply {operator : Token} {precedence : Precedence}
    (binds : operator.kind.binaryPrecedence? = some precedence) {left right : Grouped}
    (hleft : ∀ q, left.precedence? = some q → precedence.level ≤ q.level)
    (hright : ∀ q, right.precedence? = some q → precedence.level < q.level)
    (hreadsl : left.Reads input e) (hreadsr : right.Reads input e) :
    (apply operator precedence binds left right).Reads input e := by
  intro n i d floor hshows hlimit hfloor hfollows hnext result c' h
  have hoperator : input.Shows (i + left.tokens.length) (operator :: right.tokens) := hshows.right
  have hk : (input.kindAt (i + left.tokens.length)).binaryPrecedence? = some precedence := by
    rw [hoperator.kindAt, binds]
  have hend : i + (apply operator precedence binds left right).tokens.length =
      i + left.tokens.length + 1 + right.tokens.length := by
    simp only [tokens, List.length_cons, List.length_append]
    omega
  rw [hend] at hfollows hnext h
  rw [nesting] at hlimit
  have hoperand := hreadsr.binary (d := d) hoperator.tail (by omega) hright hfollows
    (hnext precedence rfl) n
  -- The left operand is read up to the operator, and the loop goes on with it.
  refine hreadsl hshows.left (by omega) ?_ ?_ ?_ (leads_binary_turn hk ?_ hoperand ?_)
  · intro q hq
    exact Nat.lt_of_lt_of_le (hfloor precedence rfl) (hleft q hq)
  · simp [Kind.followsOperand, hk]
  · intro q hq r hr
    obtain rfl := Option.some.inj (hk.symm.trans hr)
    exact hleft q hq
  · exact hfloor precedence rfl
  · have hlast : i + left.tokens.length + right.tokens.length + 1 =
        i + (apply operator precedence binds left right).tokens.length := by omega
    have hpos := left.tokens_pos
    have hnode := hshows.nodeAt hlast (by omega) operator.kind
      [left.concrete i, right.concrete (i + left.tokens.length + 1)]
    rw [hlast, hend] at hnode
    rw [left.concrete_start, hoperator.kindAt, hnode]
    exact h

theorem reads_of_fits {t : Grouped} (h : t.Fits) : t.Reads input e := by
  induction t with
  | name token isName => exact reads_name token isName
  | paren _ _ opens closes _ ih => exact reads_paren opens closes (ih h)
  | apply _ _ binds _ _ ihl ihr =>
    obtain ⟨hleft, hright, hfitsl, hfitsr⟩ := h
    exact reads_apply binds hleft hright (ihl hfitsl) (ihr hfitsr)

/-- The kinds of token that a tree is written with. -/
theorem token_kind (t : Grouped) :
    ∀ token ∈ t.tokens, (token.kind.beginsOperand || token.kind.followsOperand) = true := by
  induction t with
  | name token isName => simp [tokens, isName, Kind.beginsOperand]
  | paren opening closing opens closes inside ih =>
    simp only [tokens, List.forall_mem_cons, List.forall_mem_append]
    exact ⟨by rw [opens]; rfl, ih, by rw [closes]; rfl, nofun⟩
  | apply operator precedence binds left right ihl ihr =>
    simp only [tokens, List.forall_mem_cons, List.forall_mem_append]
    exact ⟨ihl, by simp [Kind.followsOperand, binds], ihr⟩

end Grouped

theorem Kind.of_beginsOperand_or {k : Kind} (h : (k.beginsOperand || k.followsOperand) = true) :
    k.isHidden = false ∧ k ≠ .colon := by
  revert h
  cases k <;> decide

namespace Production
variable {g : Grammar} {input : Input} {c c' : Cursor} {t : Concrete} {d : Nat} {e : Diagnostics}

/-- An expression that is followed by nothing is a statement. -/
theorem leads_expressionStatement (h : Leads (g.assignment false) input c t c')
    (ht : t.isEmpty = false) (hend : input.significant.size ≤ c'.pos) :
    Leads (expressionStatement g) input c t c' := by
  have hkind : input.kindAt c'.pos = .endOfFile := by
    rw [Input.kindAt, Array.getElem?_eq_none hend]
  have hcomma : input.kindAt c'.pos ≠ .comma := by rw [hkind]; decide
  have hsemicolon : input.kindAt c'.pos ≠ .semicolon := by rw [hkind]; decide
  have hends : Leads endStatement input c' () c' := by
    refine (leads_eat_not hsemicolon).bind ?_
    exact .bind_atEnd (decide_eq_true hend) (.inl rfl)
  refine (leads_expression h hcomma).bind ?_
  rw [ht]
  exact hends.bind (leads_pure t)

/-- What begins with an operand and is no labelled statement is an expression. -/
theorem leads_statement {i j : Nat} (hlimit : d < input.limit)
    (hbegins : (input.kindAt i).beginsOperand = true) (hcolon : input.kindAt (i + 1) ≠ .colon)
    (h : Leads (expressionStatement g) input ⟨i, d + 1, e⟩ t ⟨j, d + 1, e⟩) :
    Leads (statement g) input ⟨i, d, e⟩ t ⟨j, d, e⟩ := by
  unfold statement
  refine .nested hlimit ?_
  have hnot : (input.kindAt (i + 1) == .colon) = false := beq_false_of_ne hcolon
  obtain hk | hk : input.kindAt i = .identifier ∨ input.kindAt i = .openParen := by
    simpa [Kind.beginsOperand] using hbegins
  · refine .bind_current hk ?_
    refine .bind_peek ?_
    change Leads (if (true && input.kindAt (i + 1) == .colon) = true then _ else _) _ _ _ _
    rw [hnot]
    exact h
  · exact .bind_current hk (.bind_peek h)

/-- A statement that reads all tokens is the only one. -/
theorem leads_statements {j : Nat} (h : Leads g.statement input ⟨0, d, e⟩ t ⟨j, d, e⟩)
    (hj : 0 < j) (hend : input.significant.size = j) :
    Leads (statements g (pure false)) input ⟨0, d, e⟩ [t] ⟨j, d, e⟩ := by
  have hmore : decide (input.significant.size ≤ 0) = false := decide_eq_false (by omega)
  have hnone : decide (input.significant.size ≤ j) = true := decide_eq_true (by omega)
  unfold statements
  refine .iterate (.turn [t] ⟨j, d, e⟩ ?_ (.last ?_))
  · refine .bind_atEnd hmore (h.bind ?_)
    change Leads (if (j == 0) = true then _ else _) _ _ _ _
    rw [beq_false_of_ne (Nat.ne_of_gt hj)]
    exact leads_pure _
  · exact .bind_atEnd hnone (leads_pure _)

end Production

open Production

/-- A tree that is all the input is its only statement. -/
theorem Grouped.leads_statements {t : Grouped} {input : Input} (hfits : t.Fits)
    (hshows : input.Shows 0 t.tokens) (hsize : input.significant.size = t.tokens.length)
    (hlimit : 2 + t.nesting ≤ input.limit) (n : Nat) :
    Leads (statements (.within n) (pure false)) input .initial [t.concrete 0]
      ⟨t.tokens.length, 0, #[]⟩ := by
  have hend : input.kindAt (0 + t.tokens.length) = .endOfFile := by
    rw [Nat.zero_add, Input.kindAt, Array.getElem?_eq_none (Nat.le_of_eq hsize)]
  have hcolon : input.kindAt (0 + 1) ≠ .colon := by
    cases hsecond : t.tokens[1]? with
    | some token =>
      rw [Input.kindAt, hshows 1 token hsecond]
      exact (Kind.of_beginsOperand_or (t.token_kind token (List.mem_of_getElem? hsecond))).2
    | none =>
      have hle : input.significant.size ≤ 0 + 1 := hsize ▸ List.getElem?_eq_none_iff.mp hsecond
      rw [Input.kindAt, Array.getElem?_eq_none hle]
      decide
  refine Production.leads_statements ?_ t.tokens_pos hsize
  cases n with
  | zero => exact leads_exhausted
  | succ n =>
    have hreads : t.Reads input #[] := reads_of_fits hfits
    have hassignment := hreads.assignment (d := 1) hshows (by omega) (.inr hend) n
    rw [Nat.zero_add] at hassignment
    have hstatement := leads_expressionStatement hassignment (t.concrete_isEmpty 0)
      (Nat.le_of_eq hsize)
    exact leads_statement (g := .within n) (by omega) (t.begins_kindAt hshows) hcolon hstatement

/-- Reading undoes printing. A tree of binary operators over names that is written with the
parentheses it needs is read as the only statement of a script, and nothing is reported. -/
theorem program_undoes_printing (t : OperatorTree) (parens : List Side → Parens) (lines : LineMap)
    (limit : Nat) (h : 2 + (t.grouped parens).nesting ≤ limit) :
    let printed := t.grouped parens
    Cursor.initial.program (.ofTokens printed.tokens.toArray lines limit) =
      (.ok (.inner .script 0 (some (printed.tokens.length - 1)) [printed.concrete 0]),
        ⟨printed.tokens.length, 0, #[]⟩) := by
  intro printed
  have hpos : 0 < printed.tokens.length := printed.tokens_pos
  have hhidden : ∀ token ∈ printed.tokens, token.isHidden = false := fun token htoken =>
    (Kind.of_beginsOperand_or (printed.token_kind token htoken)).1
  have hshows := Input.shows_ofTokens hhidden lines limit
  have hsize : (Input.ofTokens printed.tokens.toArray lines limit).significant.size =
      printed.tokens.length := by
    rw [Input.significant_ofTokens hhidden]
    simp
  have hstatements := Grouped.leads_statements (t.fits_grouped parens) hshows hsize h
    (callAllowance limit)
  have hroom : 11 * limit < callAllowance limit := by
    unfold callAllowance
    omega
  have hruns := hstatements.runs
    (settles_statements (Input.significant_size_le _ lines limit) hroom .initial)
  have hlast : printed.tokens.length - 1 + 1 = 0 + printed.tokens.length := by omega
  have hnode := hshows.nodeAt hlast (Nat.zero_le _) .script [printed.concrete 0]
  have hfirst : (Input.ofTokens printed.tokens.toArray lines limit).indexAt 0 = 0 := by
    rw [Input.indexAt, hshows 0 _ (List.getElem?_eq_getElem hpos)]
  rw [hlast, Nat.zero_add] at hnode
  have hprogram : Runs Production.program (.ofTokens printed.tokens.toArray lines limit) .initial
      (.inner .script 0 (some (printed.tokens.length - 1)) [printed.concrete 0])
      ⟨printed.tokens.length, 0, #[]⟩ := by
    unfold Production.program
    have hindex : Runs index (.ofTokens printed.tokens.toArray lines limit) .initial 0 .initial :=
      congrArg (EStateM.Result.ok · _) hfirst
    have hread : Runs read (.ofTokens printed.tokens.toArray lines limit) .initial
      (.ofTokens printed.tokens.toArray lines limit) .initial := rfl
    refine hindex.andThen (hread.andThen (hruns.andThen ?_))
    rw [← hnode]
    rfl
  unfold Runs at hprogram
  rw [Cursor.program, hprogram]

/-- The sum in `(a + b) * c` needs its parentheses, and with them a third level. -/
theorem program_undoes_printing_product :
    let name (text : String) (place : Nat) : Token :=
      ⟨.identifier, text, 1, place, place, false, false⟩
    let sum : OperatorTree := .apply ⟨.plus, "+", 1, 2, 2, false, false⟩ .additive rfl
      (.name (name "a" 1) rfl) (.name (name "b" 3) rfl)
    let t : OperatorTree := .apply ⟨.asterisk, "*", 1, 5, 5, false, false⟩ .multiplicative rfl sum
      (.name (name "c" 6) rfl)
    let parens : List Side → Parens := fun _ => ⟨⟨.openParen, "(", 1, 0, 0, false, false⟩,
      ⟨.closeParen, ")", 1, 4, 4, false, false⟩, rfl, rfl⟩
    2 + (t.grouped parens).nesting ≤ 3 ∧
      Cursor.initial.program
        (.ofTokens (t.grouped parens).tokens.toArray (.ofText "(a+b)*c") 3) =
        (.ok (.inner .script 0 (some 6)
          [.inner .asterisk 0 (some 6)
            [.inner .paren 0 (some 4)
              [.inner .plus 1 (some 3) [.leaf .identifier 1 "a", .leaf .identifier 3 "b"]],
              .leaf .identifier 6 "c"]]), ⟨7, 0, #[]⟩) := by
  intro name sum t parens
  exact ⟨by decide, program_undoes_printing t parens (.ofText "(a+b)*c") 3 (by decide)⟩

end ScriptTree
