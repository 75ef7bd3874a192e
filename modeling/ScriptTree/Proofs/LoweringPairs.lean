import Mathlib.Data.List.Forall2
import ScriptTree.Lowering.Script
import ScriptTree.Proofs.ExpressionWritten

/-!
Two lowerings side by side. A `Pairing` relates trees that no rule tells apart; the first of two
such trees is lowered within a limit, the second one maybe within a greater one. Unless the first
lowering goes past its limit, both come to the same: the same failure or the same node. Of the node
it is said how deep the nodes inside it are, and where those come from that are made of a row of
trees.
-/
namespace ScriptTree

/-! Lowerings that come to the same. -/

namespace Lowered
variable {α β : Type} {limit : Nat} {P : α → Prop} {Q : β → Prop}

theorem gives_any {x : Lowered α} : Gives (fun _ => True) x := fun _ _ => trivial

/-- What holds of each item and of what it is made of. -/
theorem gives_forall₂ {R : β → α → Prop} {f : β → Lowered α} {xs : List β}
    (h : ∀ x ∈ xs, Gives (R x) (f x)) : Gives (List.Forall₂ R xs) (xs.mapM f) := by
  induction xs with
  | nil => exact gives_ok .nil
  | cons x xs ih =>
    rw [List.mapM_cons]
    refine (h x List.mem_cons_self).bind fun y hy => ?_
    refine (ih fun x hx => h x (List.mem_cons_of_mem _ hx)).bind fun ys hys => ?_
    exact gives_ok (.cons hy hys)

/-- The first lowering goes past the limit, or the second one comes to the same, and `P` holds of
what is given. -/
inductive Alike (limit : Nat) (P : α → Prop) : Lowered α → Lowered α → Prop where
  | tooDeep (y : Lowered α) : Alike limit P (.error (.tooDeep limit)) y
  | failed (e : LoweringError) : Alike limit P (.error e) (.error e)
  | given {a : α} : P a → Alike limit P (.ok a) (.ok a)

theorem Alike.bind {x y : Lowered α} {f g : α → Lowered β} (h : Alike limit P x y)
    (hf : ∀ a, P a → Alike limit Q (f a) (g a)) : Alike limit Q (x >>= f) (y >>= g) := by
  cases h with
  | tooDeep => exact .tooDeep _
  | failed e => exact .failed e
  | given ha => exact hf _ ha

/-- The same step on both sides. -/
theorem Alike.step {x : Lowered α} {f g : α → Lowered β}
    (hf : ∀ a, x = .ok a → Alike limit Q (f a) (g a)) : Alike limit Q (x >>= f) (x >>= g) := by
  cases x with
  | error e => exact .failed e
  | ok a => exact hf a rfl

theorem Alike.mono {R : α → Prop} {x y : Lowered α} (h : Alike limit P x y)
    (hR : ∀ a, x = .ok a → P a → R a) : Alike limit R x y := by
  cases h with
  | tooDeep => exact .tooDeep _
  | failed e => exact .failed e
  | given ha => exact .given (hR _ rfl ha)

theorem Alike.gives {x y : Lowered α} (h : Alike limit P x y) : Gives P x := by
  cases h with
  | tooDeep => exact gives_error
  | failed => exact gives_error
  | given ha => exact gives_ok ha

theorem alike_mapM {same : Concrete → Concrete → Prop} {ts ts' : List Concrete}
    {f g : Concrete → Lowered α} (hts : List.Forall₂ same ts ts')
    (hf : ∀ {t t'}, same t t' → Alike limit P (f t) (g t')) :
    Alike limit (fun ys => ∀ y ∈ ys, P y) (ts.mapM f) (ts'.mapM g) := by
  induction hts with
  | nil => exact .given nofun
  | cons ht _ ih =>
    rw [List.mapM_cons, List.mapM_cons]
    refine (hf ht).bind fun y hy => ih.bind fun ys hys => .given ?_
    exact List.forall_mem_cons.mpr ⟨hy, hys⟩

end Lowered
open Lowered

/-! Lists side by side. -/

theorem exists_mem_of_forall₂ {α β : Type} {R : α → β → Prop} {xs : List α} {ys : List β}
    (h : List.Forall₂ R xs ys) {y : β} (hy : y ∈ ys) : ∃ x ∈ xs, R x y := by
  induction h with
  | nil => cases hy
  | cons hxy _ ih =>
    rcases List.mem_cons.mp hy with rfl | hy
    · exact ⟨_, List.mem_cons_self, hxy⟩
    · obtain ⟨x, hx, hxy⟩ := ih hy
      exact ⟨x, List.mem_cons_of_mem _ hx, hxy⟩

/-- What relates the members of a list in turn also relates those of a list beside it. -/
theorem pairwise_of_forall₂ {α β : Type} {R : α → β → Prop} {S : α → α → Prop} {S' : β → β → Prop}
    {xs : List α} {ys : List β} (h : List.Forall₂ R xs ys) (hxs : xs.Pairwise S)
    (hS : ∀ {a a' b b'}, R a b → R a' b' → S a a' → S' b b') : ys.Pairwise S' := by
  induction h with
  | nil => exact .nil
  | cons hxy hrest ih =>
    obtain ⟨hfirst, hxs⟩ := List.pairwise_cons.mp hxs
    refine List.pairwise_cons.mpr ⟨fun b hb => ?_, ih hxs⟩
    obtain ⟨a, ha, hab⟩ := exists_mem_of_forall₂ hrest hb
    exact hS hxy hab (hfirst a ha)

/-- Nodes that begin where trees do are sorted by their starts if the trees are. -/
theorem starts_sorted_of_forall₂ {tokens : Array Token} {ts : List Concrete} {ns : List Node}
    (h : List.Forall₂
      (fun t n => n.range.start = TokenTable.offset (.ofTokens tokens) t.start) ts ns)
    (hts : ts.Pairwise fun t u => t.start ≤ u.start) :
    ns.Pairwise fun m n => m.range.start ≤ n.range.start := by
  refine pairwise_of_forall₂ h hts fun hm hn hle => ?_
  rw [hm, hn]
  exact TokenTable.offset_mono tokens hle

/-! Trees that no rule tells apart. -/

/-- Whether the children of such a tree are put into the order of the source. -/
def Kind.ordersChildren : Kind → Bool
  | .switchKeyword | .xmlLiteral => true
  | _ => false

theorem rel_getElem? {same : Concrete → Concrete → Prop} {ts ts' : List Concrete}
    (h : List.Forall₂ same ts ts') (i : Nat) : Option.Rel same ts[i]? ts'[i]? := by
  induction h generalizing i with
  | nil => exact .none
  | cons ht _ ih =>
    cases i with
    | zero => exact .some ht
    | succ i => exact ih i

theorem rel_getLast? {same : Concrete → Concrete → Prop} {ts ts' : List Concrete}
    (h : List.Forall₂ same ts ts') : Option.Rel same ts.getLast? ts'.getLast? := by
  rw [List.getLast?_eq_getElem?, List.getLast?_eq_getElem?, h.length_eq]
  exact rel_getElem? h _

/-- Two lowerings, the first of them within `limit`, of trees that are the same to every rule. -/
structure Pairing where
  cx : Lowering
  limit : Nat
  same : Concrete → Concrete → Prop
  kind_eq : ∀ {t t'}, same t t' → t'.kind = t.kind
  start_eq : ∀ {t t'}, same t t' → t'.start = t.start
  after_eq : ∀ {t t'}, same t t' → t'.after = t.after
  content_eq : ∀ {t t'}, same t t' → t'.content = t.content
  isEmpty_eq : ∀ {t t'}, same t t' → t'.isEmpty = t.isEmpty
  children : ∀ {t t'}, same t t' → t.kind.ordersChildren = false →
    List.Forall₂ same t.children t'.children
  /-- The items of an array are not asked for their kind. -/
  items : ∀ {t t'}, same t t' → t.kind = .arrayLiteral →
    List.Forall₂ (fun u u' => same u u' ∧ List.Forall₂ same u.children u'.children)
      t.children t'.children
  subject : ∀ {t t'}, same t t' → t.kind = .switchKeyword →
    Option.Rel same (t.child? 0) (t'.child? 0)
  clauses : ∀ {t t'}, same t t' → t.kind = .switchKeyword →
    List.Forall₂ same (Lowering.sorted (t.children.drop 1)) (Lowering.sorted (t'.children.drop 1))
  parts : ∀ {t t'}, same t t' → t.kind = .xmlLiteral →
    List.Forall₂ same (Lowering.sorted t.children) (Lowering.sorted t'.children)

/-- Whether a node is made of a row of trees: items with commas between them, or clauses. -/
def Node.hasRow : Node → Bool
  | .call .. | .function .. | .array .. | .object .. | .comma .. | .variableDeclaration .. => true
  | .constStatement .. | .switchStatement .. => true
  | _ => false

/-- The rules that make a node of a row of trees. Each of them makes nodes of one kind. -/
inductive Lowering.Gathers (cx : Lowering) (b : Builder) (t : Concrete) (n : Node) : Prop where
  | call : n.kind = .callExpression → cx.call b t a = .ok n → Gathers cx b t n
  | function : n.kind = .function → cx.function b t a = .ok n → Gathers cx b t n
  | array : n.kind = .arrayInitializer → cx.array b t a = .ok n → Gathers cx b t n
  | object : n.kind = .objectInitializer → cx.object b t a = .ok n → Gathers cx b t n
  | comma : n.kind = .commaExpression → cx.comma b t a = .ok n → Gathers cx b t n
  | variableDeclaration : n.kind = .variableDeclaration →
      cx.variableDeclaration b t a = .ok n → Gathers cx b t n
  | constStatement : n.kind = .constStatement → cx.constStatement b t a = .ok n → Gathers cx b t n
  | switchStatement : n.kind = .switchStatement →
      cx.switchStatement b t a = .ok n → Gathers cx b t n

/-- Relation `P` holds between every node inside `n` and its level, if `n` itself is at `d`. -/
inductive Node.Everywhere (P : Nat → Node → Prop) : Nat → Node → Prop where
  | node {d : Nat} {n : Node} : P d n → (∀ c ∈ n.children, Everywhere P (d + 1) c) →
      Everywhere P d n

namespace Pairing
variable {w : Pairing} {t t' u u' : Concrete} {ts ts' : List Concrete}

theorem rangeOf_eq (h : w.same t t') : w.cx.rangeOf t' = w.cx.rangeOf t := by
  rw [Lowering.rangeOf, Lowering.rangeOf, w.start_eq h, w.after_eq h]

theorem leafRange_eq (h : w.same t t') : w.cx.leafRange t' = w.cx.leafRange t := by
  rw [Lowering.leafRange, Lowering.leafRange, w.start_eq h, w.content_eq h]

theorem label_eq (h : w.same t t') : w.cx.label t' = w.cx.label t := by
  rw [Lowering.label, Lowering.label, w.leafRange_eq h, w.content_eq h]

theorem commas_eq (h : List.Forall₂ w.same ts ts') : w.cx.commas ts' = w.cx.commas ts := by
  induction h with
  | nil => rfl
  | cons ht hts ih =>
    cases hts with
    | nil => rfl
    | cons hu _ => rw [Lowering.commas, Lowering.commas, w.after_eq ht, w.start_eq hu, ih]

theorem afterLast_eq (h : List.Forall₂ w.same ts ts') :
    Lowering.afterLast ts' = Lowering.afterLast ts := by
  have hlast := rel_getLast? h
  funext otherwise
  unfold Lowering.afterLast
  generalize ts.getLast? = x at hlast ⊢
  generalize ts'.getLast? = y at hlast ⊢
  cases hlast with
  | none => rfl
  | some hsame => exact w.after_eq hsame

theorem firstStart_eq (h : List.Forall₂ w.same ts ts') :
    Lowering.firstStart ts' = Lowering.firstStart ts := by
  funext otherwise
  cases h with
  | nil => rfl
  | cons hsame _ => exact w.start_eq hsame

/-- The first lowering made node `n` of a row of trees. -/
def Made (w : Pairing) (n : Node) : Prop :=
  ∃ fuel t t', w.same t t' ∧ Lowering.Gathers w.cx (.within w.cx w.limit fuel) t n

/-- Node `n` may stand at level `d`. A few nodes are made without a look at the limit. -/
structure Stands (w : Pairing) (d : Nat) (n : Node) : Prop where
  depth_le : d ≤ w.limit + 2
  made : n.hasRow = true → w.Made n

/-- Node `n` and all nodes inside it may stand where they do. -/
abbrev Grown (w : Pairing) (d : Nat) (n : Node) : Prop := n.Everywhere w.Stands d

theorem grown_node {d : Nat} {n : Node} (hd : d ≤ w.limit + 2) (hrow : n.hasRow = false)
    (hchildren : ∀ c ∈ n.children, w.Grown (d + 1) c) : w.Grown d n :=
  .node ⟨hd, fun h => by rw [hrow] at h; cases h⟩ hchildren

theorem grown_leaf {d : Nat} {n : Node} (hd : d ≤ w.limit + 2) (hrow : n.hasRow = false)
    (hchildren : n.children = []) : w.Grown d n :=
  grown_node hd hrow (by rw [hchildren]; nofun)

end Pairing

/-- The parts inside of trees that are the same are lowered alike. -/
structure Builder.Pairs (w : Pairing) (b b' : Builder) : Prop where
  made : ∀ {t t' n}, w.same t t' → Lowering.Gathers w.cx b t n → w.Made n
  expression : ∀ {t t'}, w.same t t' → ∀ a,
    Alike w.limit (fun n => a.depth ≤ w.limit ∧ w.Grown a.depth n)
      (b.expression t a) (b'.expression t' a)
  statement : ∀ {t t'}, w.same t t' → ∀ a bound,
    Alike w.limit (w.Grown a.depth) (b.statement t a bound) (b'.statement t' a bound)

namespace Pairing
variable {w : Pairing} {b b' : Builder} {t t' u u' : Concrete} {a : Ancestry} {α : Type}
  {P : α → Prop}

/-- A node at level `d` that is made of a row of trees. -/
structure Gathered (w : Pairing) (kind : NodeKind) (d : Nat) (n : Node) : Prop where
  kind_eq : n.kind = kind
  inside : ∀ c ∈ n.children, w.Grown (d + 1) c

/-- A child that has to be there is there in both trees or in neither. -/
theorem alike_child (h : w.same t t') (hrel : Option.Rel w.same (t.child? i) (t'.child? i))
    {what : String} {f g : Concrete → Lowered α}
    (hf : ∀ {u u'}, w.same u u' → Alike w.limit P (f u) (g u')) :
    Alike w.limit P (Lowering.child t i what >>= f) (Lowering.child t' i what >>= g) := by
  unfold Lowering.child
  rw [w.kind_eq h]
  generalize t.child? i = x at hrel ⊢
  generalize t'.child? i = y at hrel ⊢
  cases hrel with
  | none => exact .failed _
  | some hu => exact hf hu

theorem child? (h : w.same t t') (hk : t.kind.ordersChildren = false) (i : Nat) :
    Option.Rel w.same (t.child? i) (t'.child? i) := rel_getElem? (w.children h hk) i

theorem grown_keyword {d : Nat} (hd : d ≤ w.limit + 2) (word : Keyword) :
    w.Grown d (.keyword word) := grown_leaf hd rfl rfl

theorem alike_identifier {d : Nat} (h : w.same t t') (hd : d ≤ w.limit + 2) :
    Alike w.limit (w.Grown d) (w.cx.identifier t a) (w.cx.identifier t' a) := by
  unfold Lowering.identifier
  rw [w.kind_eq h, w.leafRange_eq h, w.content_eq h]
  split
  · exact .given (grown_leaf hd rfl rfl)
  · exact .failed _

/-- A part that may be left out. -/
theorem alike_optional {same : Concrete → Concrete → Prop} {Q : Node → Prop}
    {x x' : Option Concrete} (h : Option.Rel same x x') {f g : Concrete → Lowered Node}
    (hf : ∀ {u u'}, same u u' → Alike w.limit Q (f u) (g u')) :
    Alike w.limit (fun part => ∀ n ∈ part, Q n) (x.mapM f) (x'.mapM g) := by
  cases h with
  | none => exact .given nofun
  | some hx =>
    refine (hf hx).bind fun part hpart => .given ?_
    rintro _ ⟨⟩
    exact hpart

/-- A list in parentheses is opened and closed alike, whatever its items are. -/
theorem alike_listed (h : w.same t t') {Q : Node → Prop} {item item' : Concrete → Lowered Node}
    (hitem : ∀ {u u'}, w.same u u' → Alike w.limit Q (item u) (item' u')) :
    Alike w.limit (fun list => ∀ n ∈ list.items, Q n) (w.cx.listed t item)
      (w.cx.listed t' item') := by
  unfold Lowering.listed
  rw [w.kind_eq h]
  split
  · exact .failed _
  · rename_i hkind
    have hchildren := w.children h (by rw [not_not.mp hkind]; rfl)
    rw [w.start_eq h, w.after_eq h, afterLast_eq hchildren, firstStart_eq hchildren,
      commas_eq hchildren]
    refine (alike_mapM hchildren hitem).bind fun items hitems => ?_
    exact .step fun commas _ => .given hitems

variable (hb : b.Pairs w b')
include hb

theorem alike_part (h : w.same t t') {kind : NodeKind} :
    Alike w.limit (w.Grown (a.depth + 1)) (b.expression t (a.enter kind))
      (b'.expression t' (a.enter kind)) :=
  (hb.expression h (a.enter kind)).mono fun _ _ hn => hn.2

theorem alike_body (h : w.same t t') {kind : NodeKind} {bound : Nat} :
    Alike w.limit (w.Grown (a.depth + 1)) (b.statement t (a.enter kind) bound)
      (b'.statement t' (a.enter kind) bound) :=
  hb.statement h (a.enter kind) bound

theorem alike_block {d : Nat} (h : w.same t t') (hd : d ≤ w.limit + 2) (ha : a.depth = d) :
    Alike w.limit (w.Grown d) (w.cx.block b t a) (w.cx.block b' t' a) := by
  subst ha
  unfold Lowering.block
  rw [w.kind_eq h]
  split
  · exact .failed _
  · rename_i hkind
    have hchildren := w.children h (by rw [not_not.mp hkind]; rfl)
    rw [w.start_eq h, w.after_eq h, w.rangeOf_eq h, afterLast_eq hchildren]
    refine (alike_mapM hchildren fun hu => alike_body hb hu).bind fun statements hstatements => ?_
    exact .given (grown_node hd rfl hstatements)

theorem alike_function (h : w.same t t') (hk : t.kind.ordersChildren = false)
    (hd : a.depth ≤ w.limit) :
    Alike w.limit (w.Gathered .function a.depth) (w.cx.function b t a) (w.cx.function b' t' a) := by
  have hinside : a.depth + 1 ≤ w.limit + 2 := by omega
  -- A name, if there is one, goes before the parameters and the body.
  have hparts {word : Keyword} {name name' : Option Concrete} {u u' v v' : Concrete}
      (hname : Option.Rel w.same name name') (hparameters : w.same u u') (hbody : w.same v v') :
      Alike w.limit (w.Gathered .function a.depth)
        (do
          let name ← name.mapM (w.cx.identifier · (a.enter .function))
          let list ← w.cx.listed u (w.cx.identifier · (a.enter .function))
          return .function (w.cx.rangeOf t) word name list.openParen list.items list.commas
            list.closeParen (← w.cx.block b v (a.enter .function)))
        (do
          let name ← name'.mapM (w.cx.identifier · (a.enter .function))
          let list ← w.cx.listed u' (w.cx.identifier · (a.enter .function))
          return .function (w.cx.rangeOf t) word name list.openParen list.items list.commas
            list.closeParen (← w.cx.block b' v' (a.enter .function))) := by
    refine (alike_optional hname fun hu => alike_identifier hu hinside).bind fun name hname => ?_
    refine (alike_listed hparameters fun hu => alike_identifier hu hinside).bind
      fun list hitems => ?_
    refine (alike_block hb hbody hinside rfl).bind fun body hbody => .given ⟨rfl, ?_⟩
    have hword := grown_keyword hinside word
    simpa [Node.children, or_imp, forall_and] using ⟨hword, hname, hitems, hbody⟩
  have hchildren := w.children h hk
  unfold Lowering.function
  rw [w.kind_eq h, w.start_eq h, w.rangeOf_eq h]
  refine .step fun word _ => ?_
  generalize t.children = ts at hchildren ⊢
  generalize t'.children = ts' at hchildren ⊢
  cases hchildren with
  | nil => exact .failed _
  | @cons first _ _ _ hfirst hothers =>
    dsimp only
    rw [w.kind_eq hfirst]
    by_cases hname : first.kind = .identifier
    · rw [if_pos hname, if_pos hname]
      rcases hothers with _ | ⟨hparameters, _ | ⟨hbody, _ | _⟩⟩
      · exact .failed _
      · exact .failed _
      · exact hparts (.some hfirst) hparameters hbody
      · exact .failed _
    · rw [if_neg hname, if_neg hname]
      rcases hothers with _ | ⟨hbody, _ | _⟩
      · exact .failed _
      · exact hparts .none hfirst hbody
      · exact .failed _

theorem alike_declarator {d : Nat} (h : w.same t t') (hd : d ≤ w.limit + 1) (ha : a.depth = d) :
    Alike w.limit (w.Grown d) (w.cx.declarator b t a) (w.cx.declarator b' t' a) := by
  subst ha
  have hinside : a.depth + 1 ≤ w.limit + 2 := Nat.succ_le_succ hd
  unfold Lowering.declarator
  rw [w.kind_eq h]
  split
  · refine (alike_identifier h hinside).bind fun name hname => .given ?_
    exact grown_node (Nat.le_of_succ_le hinside) rfl (by simpa [Node.children] using hname)
  · rename_i hkind
    have hchild := child? h (by rw [hkind]; rfl)
    refine alike_child h (hchild 0) fun hname => alike_child h (hchild 1) fun hvalue => ?_
    rw [w.rangeOf_eq h, w.after_eq hname, w.start_eq hvalue]
    refine (alike_identifier hname hinside).bind fun name hname => ?_
    refine (alike_part hb hvalue).bind fun value hvalue => .given ?_
    exact grown_node (Nat.le_of_succ_le hinside) rfl (by simp [Node.children, hname, hvalue])
  · exact .failed _

/-! Expressions. -/

section
variable (h : w.same t t') (hk : t.kind.ordersChildren = false) (hd : a.depth ≤ w.limit)
include h hk hd

omit hb hk in
theorem alike_thisExpression :
    Alike w.limit (w.Grown a.depth) (w.cx.thisExpression t) (w.cx.thisExpression t') := by
  unfold Lowering.thisExpression
  rw [w.start_eq h, leafRange_eq h]
  refine .step fun word _ => .given ?_
  have hword := grown_keyword (w := w) (d := a.depth + 1) (by omega) word
  exact grown_node (by omega) rfl (List.forall_mem_singleton.mpr hword)

theorem alike_wrapped :
    Alike w.limit (w.Grown a.depth) (w.cx.wrapped b t a) (w.cx.wrapped b' t' a) := by
  have hchildren := w.children h hk
  unfold Lowering.wrapped
  rw [w.start_eq h, w.kind_eq h]
  generalize t.children = ts at hchildren ⊢
  generalize t'.children = ts' at hchildren ⊢
  rcases hchildren with _ | ⟨hinside, _ | _⟩
  · exact .given (grown_leaf (by omega) rfl rfl)
  · exact (hb.expression hinside a).mono fun _ _ hn => hn.2
  · exact .failed _

theorem alike_binary :
    Alike w.limit (w.Grown a.depth) (w.cx.binary b t a) (w.cx.binary b' t' a) := by
  unfold Lowering.binary
  refine alike_child h (child? h hk 0) fun hleft => alike_child h (child? h hk 1) fun hright => ?_
  rw [w.kind_eq h, w.after_eq hleft, w.start_eq hright]
  refine .step fun position _ => ?_
  refine (alike_part hb hleft).bind fun left hleft => ?_
  refine (alike_part hb hright).bind fun right hright => .given ?_
  exact grown_node (by omega) rfl (by simp [Node.children, hleft, hright])

theorem alike_asterisk :
    Alike w.limit (w.Grown a.depth) (w.cx.asterisk b t a (w.cx.binary b t a))
      (w.cx.asterisk b' t' a (w.cx.binary b' t' a)) := by
  have hchildren := w.children h hk
  have hproduct := alike_binary hb h hk hd
  unfold Lowering.asterisk
  rw [leafRange_eq h]
  generalize w.cx.binary b t a = x at hproduct ⊢
  generalize w.cx.binary b' t' a = y at hproduct ⊢
  generalize t.children = ts at hchildren ⊢
  generalize t'.children = ts' at hchildren ⊢
  rcases hchildren with _ | ⟨hinside, _ | _⟩
  · exact .given (grown_leaf (by omega) rfl rfl)
  · exact (hb.expression hinside a).mono fun _ _ hn => hn.2
  · exact hproduct

theorem alike_unary (trailing : Bool) :
    Alike w.limit (w.Grown a.depth) (w.cx.unary b t a trailing) (w.cx.unary b' t' a trailing) := by
  unfold Lowering.unary
  refine alike_child h (child? h hk 0) fun hoperand => ?_
  rw [w.kind_eq h, w.start_eq h, w.after_eq h, rangeOf_eq h, w.start_eq hoperand,
    w.after_eq hoperand]
  dsimp only
  split
  all_goals
    refine .step fun position _ => ?_
    refine (alike_part hb hoperand).bind fun operand hoperand => .given ?_
    exact grown_node (by omega) rfl (List.forall_mem_singleton.mpr hoperand)

theorem alike_keywordOperation :
    Alike w.limit (w.Grown a.depth) (w.cx.keywordOperation b t a)
      (w.cx.keywordOperation b' t' a) := by
  have hoperand := child? h hk 0
  have hnode {word : Keyword} {operand : Node} (hoperand : w.Grown (a.depth + 1) operand) :
      w.Grown a.depth (.keywordOperation (w.cx.rangeOf t) word operand) := by
    have hword := grown_keyword (w := w) (d := a.depth + 1) (by omega) word
    exact grown_node (by omega) rfl (by simp [Node.children, hword, hoperand])
  unfold Lowering.keywordOperation
  rw [w.kind_eq h, w.start_eq h, rangeOf_eq h]
  refine .step fun word _ => ?_
  generalize t.child? 0 = x at hoperand ⊢
  generalize t'.child? 0 = y at hoperand ⊢
  cases hoperand with
  | none =>
    dsimp only
    split
    · exact .given (hnode (grown_leaf (by omega) rfl rfl))
    · exact .failed _
  | some hoperand =>
    exact (alike_part hb hoperand).bind fun operand hoperand => .given (hnode hoperand)

theorem alike_newExpression :
    Alike w.limit (w.Grown a.depth) (w.cx.newExpression b t a) (w.cx.newExpression b' t' a) := by
  unfold Lowering.newExpression
  rw [w.start_eq h, rangeOf_eq h]
  refine .step fun word _ => ?_
  refine alike_child h (child? h hk 0) fun hclass => ?_
  refine (alike_part hb hclass).bind fun objectClass hclass => .given ?_
  have hword := grown_keyword (w := w) (d := a.depth + 1) (by omega) word
  exact grown_node (by omega) rfl (by simp [Node.children, hword, hclass])

omit hd in
theorem alike_call :
    Alike w.limit (w.Gathered .callExpression a.depth) (w.cx.call b t a)
      (w.cx.call b' t' a) := by
  unfold Lowering.call
  refine alike_child h (child? h hk 0) fun hcallee => ?_
  refine alike_child h (child? h hk 1) fun harguments => ?_
  rw [rangeOf_eq h]
  refine (alike_part hb hcallee).bind fun callee hcallee => ?_
  refine (alike_listed harguments fun hu => alike_part hb hu).bind fun list hitems => ?_
  exact .given ⟨rfl, List.forall_mem_cons.mpr ⟨hcallee, hitems⟩⟩

theorem alike_selector (kind : NodeKind) (mark : Kind) {build : Range → Node → Nat → Node → Node}
    (hrow : ∀ r object position name, (build r object position name).hasRow = false)
    (hchildren : ∀ r object position name,
      (build r object position name).children = [object, name]) :
    Alike w.limit (w.Grown a.depth) (w.cx.selector b t a kind mark build)
      (w.cx.selector b' t' a kind mark build) := by
  unfold Lowering.selector
  refine alike_child h (child? h hk 0) fun hobject => alike_child h (child? h hk 1) fun hname => ?_
  rw [rangeOf_eq h, w.after_eq hobject, w.start_eq hname]
  refine .step fun position _ => ?_
  refine (alike_part hb hobject).bind fun object hobject => ?_
  refine (alike_part hb hname).bind fun name hname => .given ?_
  exact grown_node (by omega) (hrow ..) (by simp [hchildren, hobject, hname])

theorem alike_arrayItem :
    Alike w.limit (w.Grown a.depth) (w.cx.arrayItem b t a) (w.cx.arrayItem b' t' a) := by
  unfold Lowering.arrayItem
  refine alike_child h (child? h hk 0) fun harray => alike_child h (child? h hk 1) fun hindex => ?_
  rw [rangeOf_eq h, w.after_eq h, w.after_eq harray, w.start_eq hindex, w.after_eq hindex]
  refine (alike_part hb harray).bind fun array harray => ?_
  refine (alike_part hb hindex).bind fun index hindex => .given ?_
  exact grown_node (by omega) rfl (by simp [Node.children, harray, hindex])

theorem alike_conditional :
    Alike w.limit (w.Grown a.depth) (w.cx.conditional b t a) (w.cx.conditional b' t' a) := by
  unfold Lowering.conditional
  refine alike_child h (child? h hk 0) fun hcondition => ?_
  refine alike_child h (child? h hk 1) fun htrue => alike_child h (child? h hk 2) fun hfalse => ?_
  rw [rangeOf_eq h, w.after_eq hcondition, w.start_eq htrue, w.after_eq htrue, w.start_eq hfalse]
  refine (alike_part hb hcondition).bind fun condition hcondition => ?_
  refine .step fun question _ => ?_
  refine (alike_part hb htrue).bind fun trueValue htrue => ?_
  refine (alike_part hb hfalse).bind fun falseValue hfalse => .given ?_
  exact grown_node (by omega) rfl (by simp [Node.children, hcondition, htrue, hfalse])

theorem alike_parenthesized :
    Alike w.limit (w.Grown a.depth) (w.cx.parenthesized b t a) (w.cx.parenthesized b' t' a) := by
  unfold Lowering.parenthesized
  refine alike_child h (child? h hk 0) fun hinside => ?_
  rw [rangeOf_eq h, w.start_eq h, w.after_eq h, w.after_eq hinside]
  refine .step fun openParen _ => ?_
  refine (alike_part hb hinside).bind fun inside hinside => .given ?_
  exact grown_node (by omega) rfl (List.forall_mem_singleton.mpr hinside)

omit hd in
theorem alike_comma :
    Alike w.limit (w.Gathered .commaExpression a.depth) (w.cx.comma b t a)
      (w.cx.comma b' t' a) := by
  have hchildren := w.children h hk
  unfold Lowering.comma
  rw [rangeOf_eq h, commas_eq hchildren]
  refine (alike_mapM hchildren fun hu => alike_part hb hu).bind fun items hitems => ?_
  exact .step fun commas _ => .given ⟨rfl, hitems⟩

omit h hk hd in
theorem alike_item {d : Nat} (h : w.same t t')
    (hchildren : List.Forall₂ w.same t.children t'.children) (hd : d ≤ w.limit + 2)
    (ha : a.depth = d) :
    Alike w.limit (w.Grown d) (w.cx.item b t a) (w.cx.item b' t' a) := by
  subst ha
  unfold Lowering.item
  rw [w.start_eq h]
  generalize t.children = ts at hchildren ⊢
  generalize t'.children = ts' at hchildren ⊢
  cases hchildren with
  | nil => exact .given (grown_leaf hd rfl rfl)
  | cons hvalue _ => exact (hb.expression hvalue a).mono fun _ _ hn => hn.2

omit hk in
theorem alike_array (hkind : t.kind = .arrayLiteral) :
    Alike w.limit (w.Gathered .arrayInitializer a.depth) (w.cx.array b t a)
      (w.cx.array b' t' a) := by
  have hchildren := w.children h (by rw [hkind]; rfl)
  have hinside : a.depth + 1 ≤ w.limit + 2 := by omega
  unfold Lowering.array
  rw [rangeOf_eq h, w.start_eq h, w.after_eq h, commas_eq hchildren, afterLast_eq hchildren]
  refine .step fun openBracket _ => ?_
  refine (alike_mapM (w.items h hkind) fun hu => alike_item hb hu.1 hu.2 hinside rfl).bind
    fun items hitems => ?_
  exact .step fun commas _ => .given ⟨rfl, hitems⟩

end

section
variable {d : Nat} (h : w.same t t') (hk : t.kind.ordersChildren = false) (hd : d ≤ w.limit + 1)
  (ha : a.depth = d)
include h hk hd ha

theorem alike_propertyInitializer :
    Alike w.limit (w.Grown d) (w.cx.propertyInitializer b t a)
      (w.cx.propertyInitializer b' t' a) := by
  subst ha
  unfold Lowering.propertyInitializer
  refine alike_child h (child? h hk 0) fun hname => alike_child h (child? h hk 1) fun hvalue => ?_
  rw [rangeOf_eq h, w.after_eq hname, w.start_eq hvalue]
  refine (alike_part hb hname).bind fun name hname => ?_
  refine (alike_part hb hvalue).bind fun value hvalue => .given ?_
  exact grown_node (by omega) rfl (by simp [Node.children, hname, hvalue])

theorem alike_getMethod :
    Alike w.limit (w.Grown d) (w.cx.getMethod b t a) (w.cx.getMethod b' t' a) := by
  subst ha
  have hinside : a.depth + 1 ≤ w.limit + 2 := Nat.succ_le_succ hd
  unfold Lowering.getMethod
  refine alike_child h (child? h hk 0) fun hname => alike_child h (child? h hk 1) fun hbody => ?_
  rw [rangeOf_eq h, w.start_eq h, w.after_eq hname, w.start_eq hbody]
  refine .step fun word _ => ?_
  refine (alike_part hb hname).bind fun name hname => ?_
  refine (alike_block hb hbody hinside rfl).bind fun body hbody => .given ?_
  have hword := grown_keyword hinside word
  exact grown_node (by omega) rfl (by simp [Node.children, hword, hname, hbody])

theorem alike_setMethod :
    Alike w.limit (w.Grown d) (w.cx.setMethod b t a) (w.cx.setMethod b' t' a) := by
  subst ha
  have hinside : a.depth + 1 ≤ w.limit + 2 := Nat.succ_le_succ hd
  unfold Lowering.setMethod
  refine alike_child h (child? h hk 0) fun hname => ?_
  refine alike_child h (child? h hk 1) fun hargument => ?_
  refine alike_child h (child? h hk 2) fun hbody => ?_
  rw [rangeOf_eq h, w.start_eq h, w.after_eq hname, w.start_eq hargument, w.after_eq hargument,
    w.start_eq hbody]
  refine .step fun word _ => ?_
  refine (alike_part hb hname).bind fun name hname => ?_
  refine (alike_identifier hargument hinside).bind fun argument hargument => ?_
  refine (alike_block hb hbody hinside rfl).bind fun body hbody => .given ?_
  have hword := grown_keyword hinside word
  exact grown_node (by omega) rfl (by simp [Node.children, hword, hname, hargument, hbody])

omit hk in
theorem alike_objectMember :
    Alike w.limit (w.Grown d) (w.cx.objectMember b t a) (w.cx.objectMember b' t' a) := by
  unfold Lowering.objectMember
  rw [w.kind_eq h]
  split
  · exact alike_propertyInitializer hb h (by rw [‹t.kind = _›]; rfl) hd ha
  · exact alike_getMethod hb h (by rw [‹t.kind = _›]; rfl) hd ha
  · exact alike_setMethod hb h (by rw [‹t.kind = _›]; rfl) hd ha
  · exact .failed _

omit hk in
theorem alike_xmlPart :
    Alike w.limit (w.Grown d) (w.cx.xmlPart b t a) (w.cx.xmlPart b' t' a) := by
  subst ha
  unfold Lowering.xmlPart
  rw [w.kind_eq h, leafRange_eq h, w.content_eq h]
  split
  · exact .given (grown_leaf (by omega) rfl rfl)
  · refine (alike_part hb h).bind fun inside hinside => .given ?_
    exact grown_node (by omega) rfl (List.forall_mem_singleton.mpr hinside)

end

section
variable (h : w.same t t') (hk : t.kind.ordersChildren = false) (hd : a.depth ≤ w.limit)
include h hk hd

theorem alike_object :
    Alike w.limit (w.Gathered .objectInitializer a.depth) (w.cx.object b t a)
      (w.cx.object b' t' a) := by
  have hchildren := w.children h hk
  unfold Lowering.object
  rw [rangeOf_eq h, w.start_eq h, w.after_eq h, commas_eq hchildren, afterLast_eq hchildren]
  cases w.cx.index? .openBrace t.start (t.start + 1) with
  | none => exact .failed _
  | some openBrace =>
    refine (alike_mapM hchildren fun hu => alike_objectMember hb hu (Nat.succ_le_succ hd) rfl).bind
      fun members hmembers => ?_
    exact .step fun commas _ => .given ⟨rfl, hmembers⟩

omit hk in
theorem alike_xmlLiteral (hkind : t.kind = .xmlLiteral) :
    Alike w.limit (w.Grown a.depth) (w.cx.xmlLiteral b t a) (w.cx.xmlLiteral b' t' a) := by
  unfold Lowering.xmlLiteral
  rw [rangeOf_eq h]
  refine (alike_mapM (w.parts h hkind)
    fun hu => alike_xmlPart hb hu (Nat.succ_le_succ hd) rfl).bind fun parts hparts => .given ?_
  exact grown_node (by omega) rfl hparts

theorem alike_variableDeclaration :
    Alike w.limit (w.Gathered .variableDeclaration a.depth) (w.cx.variableDeclaration b t a)
      (w.cx.variableDeclaration b' t' a) := by
  have hchildren := w.children h hk
  unfold Lowering.variableDeclaration
  rw [rangeOf_eq h, w.start_eq h, commas_eq hchildren]
  refine .step fun word _ => ?_
  refine (alike_mapM hchildren fun hu => alike_declarator hb hu (Nat.succ_le_succ hd) rfl).bind
    fun declarations hdeclarations => ?_
  refine .step fun commas _ => .given ⟨rfl, List.forall_mem_cons.mpr ⟨?_, hdeclarations⟩⟩
  exact grown_keyword (by omega) word

end

/-- A node made of a row of trees keeps what was said of the nodes inside it. -/
theorem grown_of_gathers {kind : NodeKind} {d : Nat} {x y : Lowered Node} (h : w.same t t')
    (hd : d ≤ w.limit) (hx : Alike w.limit (w.Gathered kind d) x y)
    (hgathers : ∀ n, n.kind = kind → x = .ok n → Lowering.Gathers w.cx b t n) :
    Alike w.limit (w.Grown d) x y := by
  refine hx.mono fun n hn hgathered => .node ⟨by omega, fun _ => ?_⟩ hgathered.inside
  exact hb.made h (hgathers n hgathered.kind_eq hn)

omit hb in
/-- What stands within the first limit stands within the second one. -/
theorem alike_guard {P : Node → Prop} {limit : Nat} (hlimit : w.limit ≤ limit) {x y : Lowered Node}
    (h : a.depth ≤ w.limit → Alike w.limit P x y) :
    Alike w.limit (fun n => a.depth ≤ w.limit ∧ P n) (Lowering.guard w.limit a >>= fun _ => x)
      (Lowering.guard limit a >>= fun _ => y) := by
  unfold Lowering.guard
  by_cases hd : w.limit < a.depth
  · rw [if_pos hd]
    exact .tooDeep _
  · have hle : a.depth ≤ w.limit := Nat.le_of_not_lt hd
    rw [if_neg hd, if_neg (Nat.not_lt_of_le (Nat.le_trans hle hlimit))]
    exact (h hle).mono fun _ _ hn => ⟨hle, hn⟩

theorem alike_expression {limit : Nat} (hlimit : w.limit ≤ limit) (h : w.same t t') :
    Alike w.limit (fun n => a.depth ≤ w.limit ∧ w.Grown a.depth n)
      (w.cx.expression w.limit b t a) (w.cx.expression limit b' t' a) := by
  unfold Lowering.expression
  refine alike_guard hlimit fun hd => ?_
  have hleaf {n : Node} (hrow : n.hasRow = false) (hchildren : n.children = []) :
      w.Grown a.depth n := grown_leaf (by omega) hrow hchildren
  rw [w.kind_eq h]
  split
  · exact alike_wrapped hb h (by rw [‹t.kind = _›]; rfl) hd
  · exact alike_asterisk hb h (by rw [‹t.kind = _›]; rfl) hd
  · rw [leafRange_eq h, w.content_eq h]
    exact .given (hleaf rfl rfl)
  · rw [leafRange_eq h]
    exact .given (hleaf rfl rfl)
  · exact alike_thisExpression h hd
  · exact alike_identifier h (by omega)
  · exact alike_parenthesized hb h (by rw [‹t.kind = _›]; rfl) hd
  · exact grown_of_gathers hb h hd (alike_comma hb h (by rw [‹t.kind = _›]; rfl)) fun _ => .comma
  · exact grown_of_gathers hb h hd (alike_call hb h (by rw [‹t.kind = _›]; rfl)) fun _ => .call
  iterate 3
    exact alike_selector hb h (by rw [‹t.kind = _›]; rfl) hd _ _ (fun _ _ _ _ => rfl)
      fun _ _ _ _ => rfl
  · exact alike_arrayItem hb h (by rw [‹t.kind = _›]; rfl) hd
  · exact alike_newExpression hb h (by rw [‹t.kind = _›]; rfl) hd
  · exact alike_conditional hb h (by rw [‹t.kind = _›]; rfl) hd
  iterate 4 exact alike_keywordOperation hb h (by rw [‹t.kind = _›]; rfl) hd
  iterate 8 exact alike_unary hb h (by rw [‹t.kind = _›]; rfl) hd _
  · exact grown_of_gathers hb h hd (alike_array hb h hd ‹t.kind = _›) fun _ => .array
  · exact grown_of_gathers hb h hd (alike_object hb h (by rw [‹t.kind = _›]; rfl) hd)
      fun _ => .object
  · exact grown_of_gathers hb h hd (alike_function hb h (by rw [‹t.kind = _›]; rfl) hd)
      fun _ => .function
  · exact grown_of_gathers hb h hd
      (alike_variableDeclaration hb h (by rw [‹t.kind = _›]; rfl) hd) fun _ => .variableDeclaration
  · exact alike_xmlLiteral hb h hd ‹t.kind = _›
  · split
    · unfold Lowering.literal
      rw [leafRange_eq h, w.content_eq h]
      exact .given (hleaf rfl rfl)
    · split
      · rename_i hoperator
        have hk : t.kind.ordersChildren = false := by
          revert hoperator
          generalize t.kind = k
          cases k <;> first | exact fun _ => rfl | exact fun h => absurd h (by decide)
        exact alike_binary hb h hk hd
      · exact .failed _

end Pairing
end ScriptTree
