import Mathlib.Data.List.Forall2
import ScriptTree.Proofs.Settling

/-!
Two runs side by side. `Twins` are two inputs whose significant tokens are the same but for their
places: hidden tokens between them differ, and so does every number that counts them. `Agree` says
that productions on the two inputs do the same, token for token, and report the same.
-/
namespace ScriptTree

/-- What a token is to the grammar: all but where it stands. -/
def Token.content (t : Token) : Kind × String × Bool × Bool :=
  (t.kind, t.text, t.lineBreakBefore, t.unterminated)

/-- What was reported, wherever it was found: the codes and the texts. -/
def Diagnostics.reports (ds : Diagnostics) : List (Nat × String) :=
  ds.toList.map fun d => (d.code, d.text)

/-- Two inputs with the same significant tokens. -/
structure Twins where
  left : Input
  right : Input
  leftTokens : Array Token
  rightTokens : Array Token
  left_over : left.Over leftTokens
  right_over : right.Over rightTokens
  limit_eq : right.limit = left.limit
  content_eq : right.significant.toList.map (·.token.content) =
    left.significant.toList.map (·.token.content)

theorem Input.Over.max_indexAt {input : Input} {tokens : Array Token} (h : input.Over tokens)
    (p q : Nat) : max (input.indexAt p) (input.indexAt q) = input.indexAt (max p q) := by
  obtain hle | hle := Nat.le_total p q
  · rw [Nat.max_eq_right hle, Nat.max_eq_right (h.indexAt_mono hle)]
  · rw [Nat.max_eq_left hle, Nat.max_eq_left (h.indexAt_mono hle)]

/-- A place after the significant tokens of ranks below `p` and not after that of rank `p`. -/
def Input.Before (input : Input) (p place : Nat) : Prop :=
  input.afterAt p ≤ place ∧ place ≤ input.indexAt p

theorem Input.Over.before_indexAt {input : Input} {tokens : Array Token} (h : input.Over tokens)
    (p : Nat) : input.Before p (input.indexAt p) :=
  ⟨h.afterAt_le_indexAt p, Nat.le_refl _⟩

theorem Input.Over.before_missingStart {input : Input} {tokens : Array Token}
    (h : input.Over tokens) (p : Nat) : input.Before p (input.missingStart p) := by
  have hle := h.afterAt_le_indexAt p
  unfold missingStart Before
  unfold afterAt at hle ⊢
  split <;> simp_all

/-- Comparing such a place to that of a token is comparing ranks. -/
theorem Input.Over.le_indexAt_iff {input : Input} {tokens : Array Token} (h : input.Over tokens)
    {p q place : Nat} (hplace : input.Before p place) (hp : p ≤ input.significant.size) :
    place ≤ input.indexAt q ↔ p ≤ q := by
  constructor
  · intro hle
    by_contra hlt
    have := h.indexAt_lt_afterAt hp (Nat.lt_of_not_le hlt)
    exact absurd (Nat.le_trans hplace.1 hle) (Nat.not_le_of_lt this)
  · intro hle
    exact Nat.le_trans hplace.2 (h.indexAt_mono hle)

/-- The significant tokens of a list, without their places. -/
theorem Input.map_token_significant (tokens : Array Token) (lines : LineMap) (limit : Nat) :
    (ofTokens tokens lines limit).significant.toList.map (·.token) =
      tokens.toList.filter (!·.isHidden) := by
  have htokens : (tokens.mapIdx fun index token => (⟨index, token⟩ : Placed)).toList.map (·.token) =
      tokens.toList := by
    apply List.ext_getElem?
    intro i
    rw [List.getElem?_map, Array.getElem?_toList, Array.getElem?_toList, Array.getElem?_mapIdx,
      Option.map_map]
    exact Option.map_id'
  unfold ofTokens
  dsimp only
  rw [Array.toList_filter, ← htokens, List.filter_map]
  rfl

namespace Twins

/-- The number of significant tokens. -/
def size (w : Twins) : Nat := w.left.significant.size

/-- Tokens, if there are any, that are the same but for where they stand. -/
inductive SameToken : Option Placed → Option Placed → Prop where
  | missing : SameToken none none
  | found : y.token.content = x.token.content → SameToken (some x) (some y)

/-- Places before the significant token of the same rank. -/
def SamePlace (w : Twins) (i j : Nat) : Prop :=
  ∃ p, p ≤ w.size ∧ w.left.Before p i ∧ w.right.Before p j

/-- The places of the significant token of the same rank, or none. -/
inductive SameStop (w : Twins) : Option Nat → Option Nat → Prop where
  | missing : SameStop w none none
  | rank : p < w.size → SameStop w (some (w.left.indexAt p)) (some (w.right.indexAt p))

/-- Trees of the same shape, over the same tokens. -/
inductive SameTree (w : Twins) : Concrete → Concrete → Prop where
  | node : w.SamePlace start start' → w.SameStop stop stop' →
      List.Forall₂ (SameTree w) children children' →
      SameTree w ⟨kind, start, stop, text, children⟩ ⟨kind, start', stop', text, children'⟩

/-- Cursors before the same token, with the same reports behind them. -/
structure SameCursor (w : Twins) (c c' : Cursor) : Prop where
  pos_eq : c'.pos = c.pos
  depth_eq : c'.depth = c.depth
  le_size : c.pos ≤ w.size
  reports_eq : c'.problems.reports = c.problems.reports

/-- Results that agree: both are found, or both productions halt at the same token. -/
inductive SameResult (w : Twins) {α β : Type} (R : α → β → Prop) :
    EStateM.Result Halt Cursor α → EStateM.Result Halt Cursor β → Prop where
  | found : R a b → w.SameCursor c c' → SameResult w R (.ok a c) (.ok b c')
  | tooDeep : p ≤ w.size → w.SameCursor c c' →
      SameResult w R (.error (.tooDeep limit (w.left.indexAt p)) c)
        (.error (.tooDeep limit (w.right.indexAt p)) c')
  | exhaustedLeft : SameResult w R (.error .exhausted c) y
  | exhaustedRight : SameResult w R x (.error .exhausted c')

/-- What two readings have in common: both give trees of the same shape, or both stop before the
same token, and the reports are the same. -/
inductive SameOutcome (w : Twins) :
    Except Halt Concrete × Cursor → Except Halt Concrete × Cursor → Prop where
  | read : w.SameTree t t' → c'.problems.reports = c.problems.reports →
      SameOutcome w (.ok t, c) (.ok t', c')
  | tooDeep : p ≤ w.size → c'.problems.reports = c.problems.reports →
      SameOutcome w (.error (.tooDeep limit (w.left.indexAt p)), c)
        (.error (.tooDeep limit (w.right.indexAt p)), c')

/-- Production `p` on the left, begun at `c`, and `q` on the right, begun at `c'`, agree, and what
they give is related by `R`. Where an allowance runs out nothing is said. -/
def Agree (w : Twins) {α β : Type} (R : α → β → Prop) (c c' : Cursor) (p : Production α)
    (q : Production β) : Prop :=
  w.SameResult R (p w.left c) (q w.right c')

/-- Two token lists whose significant tokens are the same. -/
def ofTokens {tokens tokens' : Array Token}
    (h : (tokens'.toList.filter (!·.isHidden)).map Token.content =
      (tokens.toList.filter (!·.isHidden)).map Token.content)
    (lines lines' : LineMap) (limit : Nat) : Twins where
  left := .ofTokens tokens lines limit
  right := .ofTokens tokens' lines' limit
  leftTokens := tokens
  rightTokens := tokens'
  left_over := Input.ofTokens_over tokens lines limit
  right_over := Input.ofTokens_over tokens' lines' limit
  limit_eq := rfl
  content_eq := by
    rw [← Input.map_token_significant tokens lines limit,
      ← Input.map_token_significant tokens' lines' limit, List.map_map, List.map_map] at h
    exact h

variable {w : Twins}

theorem size_eq (w : Twins) : w.right.significant.size = w.size := by
  have h := congrArg List.length w.content_eq
  rw [List.length_map, List.length_map] at h
  exact h

theorem token_cases (w : Twins) (p : Nat) :
    (w.left.significant[p]? = none ∧ w.right.significant[p]? = none) ∨
      ∃ x y, w.left.significant[p]? = some x ∧ w.right.significant[p]? = some y ∧
        y.token.content = x.token.content := by
  by_cases hp : p < w.size
  · have hleft := Array.getElem?_eq_getElem (show p < w.left.significant.size from hp)
    have hright := Array.getElem?_eq_getElem (show p < w.right.significant.size from w.size_eq ▸ hp)
    have hcontent := congrArg (·[p]?) w.content_eq
    simp only [List.getElem?_map, Array.getElem?_toList, hright, hleft, Option.map_some,
      Option.some.injEq] at hcontent
    exact .inr ⟨_, _, hleft, hright, hcontent⟩
  · refine .inl ⟨Array.getElem?_eq_none (Nat.le_of_not_lt hp), Array.getElem?_eq_none ?_⟩
    rw [w.size_eq]
    exact Nat.le_of_not_lt hp

theorem sameToken (w : Twins) (p : Nat) :
    SameToken w.left.significant[p]? w.right.significant[p]? := by
  obtain ⟨hx, hy⟩ | ⟨x, y, hx, hy, hcontent⟩ := w.token_cases p
  · rw [hx, hy]
    exact .missing
  · rw [hx, hy]
    exact .found hcontent

theorem kindAt_eq (w : Twins) (p : Nat) : w.right.kindAt p = w.left.kindAt p := by
  obtain ⟨hx, hy⟩ | ⟨x, y, hx, hy, hcontent⟩ := w.token_cases p
  · rw [Input.kindAt, Input.kindAt, hx, hy]
  · rw [Input.kindAt, Input.kindAt, hx, hy]
    exact congrArg Prod.fst hcontent

theorem textAt_eq (w : Twins) (p : Nat) : w.right.textAt p = w.left.textAt p := by
  obtain ⟨hx, hy⟩ | ⟨x, y, hx, hy, hcontent⟩ := w.token_cases p
  · rw [Input.textAt, Input.textAt, hx, hy]
  · rw [Input.textAt, Input.textAt, hx, hy]
    exact congrArg (·.2.1) hcontent

theorem SameToken.lineBreakBefore {x y : Option Placed} (h : SameToken x y) :
    y.any (·.token.lineBreakBefore) = x.any (·.token.lineBreakBefore) := by
  cases h with
  | missing => rfl
  | found hcontent => exact congrArg (·.2.2.1) hcontent

theorem SameToken.shownText_eq {x y : Option Placed} (h : SameToken x y) :
    Production.shownText y = Production.shownText x := by
  cases h with
  | missing => rfl
  | found hcontent =>
    have htext := congrArg (·.2.1) hcontent
    dsimp only [Token.content] at htext
    rw [Production.shownText, Production.shownText, Token.quoted, Token.quoted, htext]

/-! Trees. -/

theorem SamePlace.index (w : Twins) {p : Nat} (hp : p ≤ w.size) :
    w.SamePlace (w.left.indexAt p) (w.right.indexAt p) :=
  ⟨p, hp, w.left_over.before_indexAt p, w.right_over.before_indexAt p⟩

/-- A node ends with the same token on both sides, or has none on either. -/
theorem SamePlace.stop {start start' : Nat} (h : w.SamePlace start start') {q : Nat}
    (hq : q ≤ w.size) : w.SameStop ((w.left.lastBefore q).filter (start ≤ ·))
      ((w.right.lastBefore q).filter (start' ≤ ·)) := by
  cases q with
  | zero => exact .missing
  | succ q =>
    obtain ⟨p, hp, hleft, hright⟩ := h
    have hp' : p ≤ w.right.significant.size := w.size_eq ▸ hp
    have hq' : q < w.right.significant.size := w.size_eq ▸ hq
    have hle := w.left_over.le_indexAt_iff (q := q) hleft hp
    have hle' := w.right_over.le_indexAt_iff (q := q) hright hp'
    rw [Input.lastBefore_succ hq, Input.lastBefore_succ hq']
    by_cases hpq : p ≤ q
    · rw [Option.filter_some_pos (by simpa using hle.mpr hpq),
        Option.filter_some_pos (by simpa using hle'.mpr hpq)]
      exact .rank hq
    · rw [Option.filter_some_neg (by simpa using mt hle.mp hpq),
        Option.filter_some_neg (by simpa using mt hle'.mp hpq)]
      exact .missing

theorem SameStop.merge {x x' y y' : Option Nat} (hx : w.SameStop x x') (hy : w.SameStop y y') :
    w.SameStop (Option.merge max x y) (Option.merge max x' y') := by
  cases hx with
  | missing =>
    cases hy with
    | missing => exact .missing
    | rank hq => exact .rank hq
  | @rank p hp =>
    cases hy with
    | missing => exact .rank hp
    | @rank q hq =>
      change w.SameStop (some (max _ _)) (some (max _ _))
      rw [w.left_over.max_indexAt, w.right_over.max_indexAt]
      exact .rank (Nat.max_lt.mpr ⟨hp, hq⟩)

variable {t t' : Concrete} {ts ts' : List Concrete}

theorem SameTree.start (h : w.SameTree t t') : w.SamePlace t.start t'.start := by
  cases h with
  | node hstart => exact hstart

theorem SameTree.kind_eq (h : w.SameTree t t') : t'.kind = t.kind := by
  cases h with
  | node => rfl

theorem SameTree.isEmpty_eq (h : w.SameTree t t') : t'.isEmpty = t.isEmpty := by
  cases h with
  | node _ hstop hchildren => cases hstop <;> cases hchildren <;> rfl

mutual

theorem SameTree.lastToken? : ∀ {t t' : Concrete}, w.SameTree t t' →
    w.SameStop t.lastToken? t'.lastToken?
  | _, _, .node _ hstop hchildren => by
    rw [Concrete.lastToken?, Concrete.lastToken?]
    exact hstop.merge (sameStop_lastTokenOf? hchildren)

theorem sameStop_lastTokenOf? : ∀ {ts ts' : List Concrete}, List.Forall₂ w.SameTree ts ts' →
    w.SameStop (Concrete.lastTokenOf? ts) (Concrete.lastTokenOf? ts')
  | _, _, .nil => .missing
  | _, _, .cons ht hts => by
    rw [Concrete.lastTokenOf?, Concrete.lastTokenOf?]
    cases hts with
    | nil => exact ht.lastToken?
    | cons hu hus => exact sameStop_lastTokenOf? (.cons hu hus)

end

theorem SameTree.withStop (h : w.SameTree t t') {stop stop' : Option Nat}
    (hstop : w.SameStop stop stop') : w.SameTree { t with stop } { t' with stop := stop' } := by
  cases h with
  | node hstart _ hchildren => exact .node hstart hstop hchildren

theorem SameTree.absent {start start' : Nat} (h : w.SamePlace start start') (kind : Kind) :
    w.SameTree (.absent kind start) (.absent kind start') := .node h .missing .nil

theorem SameTree.leaf {p : Nat} (hp : p < w.size) (kind : Kind) (text : String) :
    w.SameTree (.leaf kind (w.left.indexAt p) text) (.leaf kind (w.right.indexAt p) text) :=
  .node (.index w (Nat.le_of_lt hp)) (.rank hp) .nil

/-! Productions. -/

open Production
variable {α β γ δ : Type} {R : α → β → Prop} {S : γ → δ → Prop} {c c' : Cursor}

theorem SameCursor.leave (hc : w.SameCursor c c') :
    w.SameCursor { c with depth := c.depth - 1 } { c' with depth := c'.depth - 1 } :=
  ⟨hc.pos_eq, congrArg (· - 1) hc.depth_eq, hc.le_size, hc.reports_eq⟩

theorem Agree.bind {p : Production α} {q : Production β} {f : α → Production γ}
    {g : β → Production δ} (h : w.Agree R c c' p q)
    (hf : ∀ {a b c c'}, R a b → w.SameCursor c c' → w.Agree S c c' (f a) (g b)) :
    w.Agree S c c' (p >>= f) (q >>= g) := by
  unfold Agree at h
  change w.SameResult S ((p w.left >>= fun a => f a w.left) c)
    ((q w.right >>= fun b => g b w.right) c')
  simp only [Bind.bind, EStateM.bind]
  generalize p w.left c = x at h
  generalize q w.right c' = y at h
  cases h with
  | found hab hc => exact hf hab hc
  | tooDeep hp hc => exact .tooDeep hp hc
  | exhaustedLeft => exact .exhaustedLeft
  | exhaustedRight => exact .exhaustedRight

theorem Agree.choose {p q : Production α} {p' q' : Production β} {f : α → Production γ}
    {g : β → Production δ} {b : Bool} (hp : w.Agree R c c' p p') (hq : w.Agree R c c' q q')
    (hf : ∀ {a b c c'}, R a b → w.SameCursor c c' → w.Agree S c c' (f a) (g b)) :
    w.Agree S c c' (if b then p >>= f else q >>= f) (if b then p' >>= g else q' >>= g) := by
  cases b with
  | true => exact hp.bind hf
  | false => exact hq.bind hf

theorem Agree.mono {R' : α → β → Prop} {p : Production α} {q : Production β}
    (h : w.Agree R c c' p q) (hR : ∀ a b, R a b → R' a b) : w.Agree R' c c' p q := by
  unfold Agree at h ⊢
  generalize p w.left c = x at h ⊢
  generalize q w.right c' = y at h ⊢
  cases h with
  | found hab hc => exact .found (hR _ _ hab) hc
  | tooDeep hp hc => exact .tooDeep hp hc
  | exhaustedLeft => exact .exhaustedLeft
  | exhaustedRight => exact .exhaustedRight

/-! Looking at the input leaves the cursors where they are. -/

theorem Agree.bind_get {f : Cursor → Production γ} {g : Cursor → Production δ}
    (h : w.Agree S c c' (f c) (g c')) : w.Agree S c c' (get >>= f) (get >>= g) := h

theorem Agree.bind_read {f : Input → Production γ} {g : Input → Production δ}
    (h : w.Agree S c c' (f w.left) (g w.right)) : w.Agree S c c' (read >>= f) (read >>= g) := h

theorem Agree.bind_current {f : Kind → Production γ} {g : Kind → Production δ}
    (hc : w.SameCursor c c')
    (h : ∀ k, w.left.kindAt c.pos = k → w.Agree S c c' (f k) (g k)) :
    w.Agree S c c' (current >>= f) (current >>= g) := by
  change w.Agree S c c' (f (w.left.kindAt c.pos)) (g (w.right.kindAt c'.pos))
  rw [hc.pos_eq, w.kindAt_eq]
  exact h _ rfl

theorem Agree.bind_peek {f : Kind → Production γ} {g : Kind → Production δ}
    (hc : w.SameCursor c c') {ahead : Nat}
    (h : ∀ k, w.left.kindAt (c.pos + ahead) = k → w.Agree S c c' (f k) (g k)) :
    w.Agree S c c' (peek ahead >>= f) (peek ahead >>= g) := by
  change w.Agree S c c' (f (w.left.kindAt (c.pos + ahead))) (g (w.right.kindAt (c'.pos + ahead)))
  rw [hc.pos_eq, w.kindAt_eq]
  exact h _ rfl

theorem Agree.bind_sees {f : Bool → Production γ} {g : Bool → Production δ} {k : Kind}
    (hc : w.SameCursor c c')
    (h : ∀ b, (b = true → w.left.kindAt c.pos = k) → w.Agree S c c' (f b) (g b)) :
    w.Agree S c c' (sees k >>= f) (sees k >>= g) := by
  change w.Agree S c c' (f (w.left.kindAt c.pos == k)) (g (w.right.kindAt c'.pos == k))
  rw [hc.pos_eq, w.kindAt_eq]
  exact h _ beq_iff_eq.mp

theorem Agree.bind_atEnd {f : Bool → Production γ} {g : Bool → Production δ}
    (hc : w.SameCursor c c')
    (h : ∀ b, (b = false → c.pos < w.size) → w.Agree S c c' (f b) (g b)) :
    w.Agree S c c' (atEnd >>= f) (atEnd >>= g) := by
  change w.Agree S c c' (f (decide (w.left.significant.size ≤ c.pos)))
    (g (decide (w.right.significant.size ≤ c'.pos)))
  rw [hc.pos_eq, w.size_eq]
  exact h _ fun hb => Nat.lt_of_not_le (of_decide_eq_false hb)

theorem Agree.bind_index_rank {f : Nat → Production γ} {g : Nat → Production δ}
    (hc : w.SameCursor c c')
    (h : w.Agree S c c' (f (w.left.indexAt c.pos)) (g (w.right.indexAt c.pos))) :
    w.Agree S c c' (index >>= f) (index >>= g) := by
  change w.Agree S c c' (f (w.left.indexAt c.pos)) (g (w.right.indexAt c'.pos))
  rw [hc.pos_eq]
  exact h

theorem Agree.bind_index {f : Nat → Production γ} {g : Nat → Production δ}
    (hc : w.SameCursor c c') (h : ∀ {i j}, w.SamePlace i j → w.Agree S c c' (f i) (g j)) :
    w.Agree S c c' (index >>= f) (index >>= g) :=
  .bind_index_rank hc (h (.index w hc.le_size))

theorem Agree.bind_token? {f : Option Placed → Production γ} {g : Option Placed → Production δ}
    (hc : w.SameCursor c c') (h : ∀ {x y}, SameToken x y → w.Agree S c c' (f x) (g y)) :
    w.Agree S c c' (token? >>= f) (token? >>= g) := by
  change w.Agree S c c' (f w.left.significant[c.pos]?) (g w.right.significant[c'.pos]?)
  rw [hc.pos_eq]
  exact h (w.sameToken c.pos)

theorem Agree.bind_afterLineBreak {f : Bool → Production γ} {g : Bool → Production δ}
    (hc : w.SameCursor c c') (h : ∀ b, w.Agree S c c' (f b) (g b)) :
    w.Agree S c c' (afterLineBreak >>= f) (afterLineBreak >>= g) := by
  refine Agree.bind_token? (f := fun x => f (x.any (·.token.lineBreakBefore)))
    (g := fun y => g (y.any (·.token.lineBreakBefore))) hc fun hxy => ?_
  rw [hxy.lineBreakBefore]
  exact h _

theorem Agree.bind_shown {f : String → Production γ} {g : String → Production δ}
    (hc : w.SameCursor c c') (h : ∀ text, w.Agree S c c' (f text) (g text)) :
    w.Agree S c c' (shown >>= f) (shown >>= g) := by
  change w.Agree S c c' (f (shownText w.left.significant[c.pos]?))
    (g (shownText w.right.significant[c'.pos]?))
  rw [hc.pos_eq, (w.sameToken c.pos).shownText_eq]
  exact h _

/-! Reading and reporting. -/

theorem agree_pure {a : α} {b : β} (h : R a b) (hc : w.SameCursor c c') :
    w.Agree R c c' (pure a) (pure b) := .found h hc

theorem agree_advance_rank (hc : w.SameCursor c c') :
    w.Agree (fun i j => i = w.left.indexAt c.pos ∧ j = w.right.indexAt c.pos) c c' advance
      advance := by
  refine .bind_index_rank hc ?_
  refine .bind_atEnd hc fun atEnd hpos => ?_
  cases atEnd with
  | true => exact agree_pure ⟨rfl, rfl⟩ hc
  | false =>
    exact .found ⟨rfl, rfl⟩ ⟨congrArg (· + 1) hc.pos_eq, hc.depth_eq, hpos rfl, hc.reports_eq⟩

theorem agree_advance (hc : w.SameCursor c c') : w.Agree w.SamePlace c c' advance advance := by
  refine (agree_advance_rank hc).mono ?_
  rintro _ _ ⟨rfl, rfl⟩
  exact .index w hc.le_size

/-- What is given does not matter. -/
theorem agree_discard {p : Production α} {q : Production β} (h : w.Agree R c c' p q) :
    w.Agree (fun _ _ => True) c c' (discard p) (discard q) :=
  h.bind fun _ hc => agree_pure trivial hc

theorem agree_eat (k : Kind) (hc : w.SameCursor c c') : w.Agree Eq c c' (eat k) (eat k) := by
  refine .bind_sees hc fun found _ => ?_
  split
  · exact (agree_discard (agree_advance hc)).bind fun _ hc => agree_pure rfl hc
  · exact agree_pure rfl hc

theorem Agree.bind_eat {f : Bool → Production γ} {g : Bool → Production δ} {k : Kind}
    (hc : w.SameCursor c c')
    (h : ∀ b {c c'}, w.SameCursor c c' → w.Agree S c c' (f b) (g b)) :
    w.Agree S c c' (eat k >>= f) (eat k >>= g) := by
  refine (agree_eat k hc).bind ?_
  rintro b _ _ _ rfl hc
  exact h b hc

theorem reports_push (ds : Diagnostics) (d : Diagnostic) :
    Diagnostics.reports (ds.push d) = ds.reports ++ [(d.code, d.text)] := by
  simp [Diagnostics.reports]

theorem agree_reportAt (x y : Option Placed) (m : Message) (args : List String)
    (hc : w.SameCursor c c') :
    w.Agree (fun _ _ => True) c c' (reportAt x m args) (reportAt y m args) := by
  refine .found trivial ⟨hc.pos_eq, hc.depth_eq, hc.le_size, ?_⟩
  change Diagnostics.reports (c'.problems.push _) = Diagnostics.reports (c.problems.push _)
  simp only [reports_push, hc.reports_eq, diagnosticAt_code, diagnosticAt_text]

theorem agree_report (m : Message) (args : List String) (hc : w.SameCursor c c') :
    w.Agree (fun _ _ => True) c c' (report m args) (report m args) :=
  .bind_token? hc fun _ => .bind_read (agree_reportAt _ _ m args hc)

theorem agree_reportExpected (k : Kind) (hc : w.SameCursor c c') :
    w.Agree (fun _ _ => True) c c' (reportExpected k) (reportExpected k) := by
  refine .bind_atEnd hc fun atEnd _ => ?_
  split
  · exact agree_report _ _ hc
  · exact .bind_shown hc fun _ => agree_report _ _ hc

theorem agree_reportUnexpected (hc : w.SameCursor c c') :
    w.Agree (fun _ _ => True) c c' reportUnexpected reportUnexpected := by
  refine .bind_atEnd hc fun atEnd _ => ?_
  split
  · exact agree_report _ _ hc
  · exact .bind_shown hc fun _ => agree_report _ _ hc

theorem agree_reportSet (set : String) (hc : w.SameCursor c c') :
    w.Agree (fun _ _ => True) c c' (reportSet set) (reportSet set) :=
  .bind_shown hc fun _ => agree_report _ _ hc

theorem agree_expect (k : Kind) (hc : w.SameCursor c c') :
    w.Agree (fun _ _ => True) c c' (expect k) (expect k) := by
  refine .bind_sees hc fun found _ => ?_
  split
  · exact agree_discard (agree_advance hc)
  refine .bind_atEnd hc fun atEnd _ => ?_
  refine .bind_peek hc fun next _ => ?_
  split
  · refine .bind_shown hc fun text => ?_
    refine (agree_report _ _ hc).bind fun _ hc => ?_
    exact (agree_discard (agree_advance hc)).bind fun _ hc => agree_discard (agree_advance hc)
  · exact agree_reportExpected k hc

theorem agree_endStatement (hc : w.SameCursor c c') :
    w.Agree (fun _ _ => True) c c' endStatement endStatement := by
  refine (agree_eat .semicolon hc).bind fun {found _ _ _} hfound hc => ?_
  subst hfound
  split
  · exact agree_pure trivial hc
  · refine .bind_atEnd hc fun atEnd _ => ?_
    refine .bind_sees hc fun closes _ => ?_
    refine .bind_afterLineBreak hc fun broken => ?_
    split
    · exact agree_pure trivial hc
    · exact .bind_shown hc fun text => agree_report _ _ hc

theorem SameCursor.stop (hc : w.SameCursor c c') {start start' : Nat}
    (hstart : w.SamePlace start start') : w.SameStop ((c.last? w.left).filter (start ≤ ·))
      ((c'.last? w.right).filter (start' ≤ ·)) := by
  change w.SameStop ((w.left.lastBefore c.pos).filter _) ((w.right.lastBefore c'.pos).filter _)
  rw [hc.pos_eq]
  exact hstart.stop hc.le_size

theorem agree_node (kind : Kind) {start start' : Nat} {ts ts' : List Concrete}
    (hstart : w.SamePlace start start') (hts : List.Forall₂ w.SameTree ts ts')
    (hc : w.SameCursor c c') :
    w.Agree w.SameTree c c' (node kind start ts) (node kind start' ts') :=
  .found (.node hstart (hc.stop hstart) hts) hc

/-- A token that is there is read into a leaf. -/
theorem Agree.bind_leaf {f : Concrete → Production γ} {g : Concrete → Production δ} (kind : Kind)
    (hpos : c.pos < w.size) (hc : w.SameCursor c c')
    (h : ∀ {t t'}, w.SameTree t t' → w.SameCursor c.next c'.next →
      w.Agree S c.next c'.next (f t) (g t')) :
    w.Agree S c c' (leaf kind >>= f) (leaf kind >>= g) := by
  have hpos' : c'.pos < w.right.significant.size := by
    rw [hc.pos_eq, w.size_eq]
    exact hpos
  have hleft : leaf kind w.left c = _ := runs_leaf kind hpos
  have hright : leaf kind w.right c' = _ := runs_leaf kind hpos'
  change w.SameResult S ((leaf kind w.left >>= fun t => f t w.left) c)
    ((leaf kind w.right >>= fun t => g t w.right) c')
  simp only [Bind.bind, EStateM.bind, hleft, hright]
  refine h ?_ ⟨congrArg (· + 1) hc.pos_eq, hc.depth_eq, hpos, hc.reports_eq⟩
  rw [Input.leafAt, Input.leafAt, hc.pos_eq, w.textAt_eq]
  exact .leaf hpos kind _

theorem agree_leaf (kind : Kind) (hpos : c.pos < w.size) (hc : w.SameCursor c c') :
    w.Agree w.SameTree c c' (leaf kind) (leaf kind) := by
  rw [← bind_pure (leaf kind)]
  exact .bind_leaf kind hpos hc fun ht hc => agree_pure ht hc

theorem agree_missing (kind : Kind) (hc : w.SameCursor c c') :
    w.Agree w.SameTree c c' (missing kind) (missing kind) := by
  have hplace : w.SamePlace (w.left.missingStart c.pos) (w.right.missingStart c'.pos) := by
    rw [hc.pos_eq]
    exact ⟨c.pos, hc.le_size, w.left_over.before_missingStart _,
      w.right_over.before_missingStart _⟩
  exact .found (.absent hplace kind) hc

theorem agree_enter (hc : w.SameCursor c c') :
    w.Agree (fun _ _ => True) c c' enter enter := by
  unfold enter
  refine Agree.bind (R := fun _ _ => True) ?_ fun _ hc => ?_
  · exact .found trivial ⟨hc.pos_eq, congrArg (· + 1) hc.depth_eq, hc.le_size, hc.reports_eq⟩
  refine .bind_read (.bind_get ?_)
  rw [w.limit_eq, hc.depth_eq]
  split
  · refine (agree_report _ _ hc).bind fun _ hc => ?_
    exact .bind_index_rank hc (.tooDeep hc.le_size hc)
  · exact agree_pure trivial hc

theorem agree_nested {p : Production α} {q : Production β}
    (h : ∀ {c c'}, w.SameCursor c c' → w.Agree R c c' p q) (hc : w.SameCursor c c') :
    w.Agree R c c' (nested p) (nested q) := by
  refine (agree_enter hc).bind fun {_ _ c c'} _ hc => ?_
  have hbody := h hc
  unfold Agree at hbody
  unfold Agree leaving
  generalize p w.left c = x at hbody
  generalize q w.right c' = y at hbody
  cases hbody with
  | found hab hc => exact .found hab (hc.leave)
  | tooDeep hp hc => exact .tooDeep hp (hc.leave)
  | exhaustedLeft => exact .exhaustedLeft
  | exhaustedRight => exact .exhaustedRight

theorem agree_repeating {step : α → Production (α ⊕ γ)} {step' : β → Production (β ⊕ δ)}
    (hstep : ∀ {a b c c'}, R a b → w.SameCursor c c' →
      w.Agree (Sum.LiftRel R S) c c' (step a) (step' b)) (n m : Nat) {a : α} {b : β} (h : R a b)
    (hc : w.SameCursor c c') : w.Agree S c c' (repeating step n a) (repeating step' m b) := by
  induction n generalizing m a b c c' with
  | zero => exact .exhaustedLeft
  | succ n ih =>
    cases m with
    | zero => exact .exhaustedRight
    | succ m =>
      refine (hstep h hc).bind fun hab hc => ?_
      cases hab with
      | inl hnext => exact ih m hnext hc
      | inr hlast => exact agree_pure hlast hc

/-- Loops agree when their turns do, although the allowances differ. -/
theorem agree_iterate {step : α → Production (α ⊕ γ)} {step' : β → Production (β ⊕ δ)} {a : α}
    {b : β} (h : R a b) (hc : w.SameCursor c c')
    (hstep : ∀ {a b c c'}, R a b → w.SameCursor c c' →
      w.Agree (Sum.LiftRel R S) c c' (step a) (step' b)) :
    w.Agree S c c' (iterate a step) (iterate b step') :=
  .bind_read (agree_repeating hstep _ _ h hc)

end Twins
end ScriptTree
