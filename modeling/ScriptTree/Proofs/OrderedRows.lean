import ScriptTree.Proofs.CallAllowance
import ScriptTree.Proofs.LoweringPairs

/-!
Rows of trees in the order of the source. The clauses of a switch and the parts of an XML literal
are put into that order before they are used. In a tree of the grammar each row is in order already,
also in text with faults, and no two trees of a row are level, so that its order can be told from
its members. Nor does the end of such a node depend on which of its children is the last.
-/
namespace ScriptTree

namespace Lowering
variable {a b c : Concrete} {ts ts' : List Concrete}

theorem inOrder_trans (hab : inOrder a b = true) (hbc : inOrder b c = true) :
    inOrder a c = true := by
  unfold inOrder at *
  grind

theorem inOrder_total (a b : Concrete) : (inOrder a b || inOrder b a) = true := by
  unfold inOrder
  grind

/-- Each of the trees comes before those after it, and is not level with them. -/
def Rising (ts : List Concrete) : Prop := ts.Pairwise fun a b => inOrder b a = false

theorem Rising.pairwise_inOrder (h : Rising ts) : ts.Pairwise fun a b => inOrder a b = true := by
  refine h.imp fun {a b} hba => ?_
  simpa [hba] using inOrder_total a b

/-- In a row in which no two trees are level, trees that come before each other are the same. -/
theorem Rising.antisymm (h : Rising ts) (ha : a ∈ ts) (hb : b ∈ ts) (hab : inOrder a b = true)
    (hba : inOrder b a = true) : a = b := by
  induction h with
  | nil => cases ha
  | cons hfirst _ ih =>
    rcases List.mem_cons.mp ha with rfl | ha'
    · rcases List.mem_cons.mp hb with rfl | hb'
      · rfl
      · exact absurd hba (by simp [hfirst b hb'])
    · rcases List.mem_cons.mp hb with rfl | hb'
      · exact absurd hab (by simp [hfirst a ha'])
      · exact ih ha' hb'

/-- However a row is reordered, sorting brings it back. -/
theorem Rising.sorted_eq (h : Rising ts) (hperm : ts.Perm ts') : sorted ts' = ts := by
  have hsorted : (sorted ts').Perm ts := (ts'.mergeSort_perm inOrder).trans hperm.symm
  refine hsorted.eq_of_pairwise (fun a b ha hb => h.antisymm (hsorted.mem_iff.mp ha) hb) ?_
    h.pairwise_inOrder
  exact @List.pairwise_mergeSort _ inOrder (fun _ _ _ => inOrder_trans) inOrder_total ts'

end Lowering
open Lowering

/-- A tag of nodes without a row, whose children are asked for their tags. -/
def Kind.isPlain (k : Kind) : Bool := !k.ordersChildren && k != .arrayLiteral

namespace Concrete

/-- The children of a node that are put into the order of the source. -/
def row (t : Concrete) : List Concrete :=
  match t.kind with
  | .switchKeyword => t.children.drop 1
  | .xmlLiteral => t.children
  | _ => []

/-- A node whose row is in order, and whose end does not depend on the order of its children. -/
structure Ordered (t : Concrete) : Prop where
  rising : Rising t.row
  last_le : t.kind.ordersChildren = true → ∀ u ∈ t.children, ∀ l, u.lastToken? = some l →
    ∃ s, t.stop = some s ∧ l ≤ s
  items : t.kind = .arrayLiteral → ∀ u ∈ t.children, u.kind.ordersChildren = false

/-- A tree in which every node is in order. -/
inductive Tidy : Concrete → Prop where
  | intro : t.Ordered → (∀ u ∈ t.children, Tidy u) → Tidy t

namespace Tidy
variable {t u : Concrete}

theorem ordered (h : t.Tidy) : t.Ordered := by
  cases h
  assumption

theorem inside (h : t.Tidy) (hu : u ∈ t.children) : u.Tidy := by
  cases h with
  | intro _ hinside => exact hinside u hu

theorem plain (hkind : t.kind.isPlain = true) (h : ∀ u ∈ t.children, u.Tidy) : t.Tidy := by
  obtain ⟨horders, hitems⟩ := Bool.and_eq_true_iff.mp hkind
  have horders : t.kind.ordersChildren = false := by simpa using horders
  have hitems : t.kind ≠ .arrayLiteral := bne_iff_ne.mp hitems
  refine .intro ⟨?_, ?_, fun harray => absurd harray hitems⟩ h
  · unfold row
    split
    · simp [‹t.kind = _›, Kind.ordersChildren] at horders
    · simp [‹t.kind = _›, Kind.ordersChildren] at horders
    · exact .nil
  · intro h
    rw [horders] at h
    cases h

theorem childless (h : t.children = []) : t.Tidy := by
  have hrow : t.row = [] := by
    unfold row
    split <;> simp [h]
  exact .intro ⟨hrow ▸ .nil, by simp [h], by simp [h]⟩ (by simp [h])

end Tidy
end Concrete

variable {input : Input} {tokens : Array Token} {r : Rule} {p m q e : Nat} {t u : Concrete}
  {ts : List Concrete}

/-! Rows of the grammar. -/

/-- Tree `t` begins with the token of rank `p`, or after it. -/
def Input.BeginsFrom (input : Input) (p : Nat) (t : Concrete) : Prop :=
  input.indexAt p < t.start ∨ t.start = input.indexAt p ∧ t.start < t.after

/-- Rules for the rows that are put into order. -/
def Rule.isRow : Rule → Bool
  | .clauses | .xmlParts => true
  | _ => false

namespace Input.Over
variable (hover : input.Over tokens)
include hover

theorem beginsFrom_mono (h : input.BeginsFrom m t) (hpm : p ≤ m) : input.BeginsFrom p t := by
  have hle := hover.indexAt_mono hpm
  unfold BeginsFrom at *
  omega

/-- What ends before rank `m` comes before what begins there. -/
theorem inOrder_eq_false (ht : input.Within p m t) (hu : input.BeginsFrom m u) :
    inOrder u t = false := by
  have hstart := ht.start_le
  have hlast (l : Nat) (hl : t.lastToken? = some l) : l < input.indexAt m :=
    Nat.lt_of_lt_of_le (ht.last_lt l hl) (hover.afterAt_le_indexAt m)
  unfold BeginsFrom Concrete.after at hu
  unfold inOrder
  grind

theorem rising_cons (ht : input.Fits p m [t]) (hp : p ≤ input.significant.size)
    (hts : ∀ u ∈ ts, input.BeginsFrom m u) (h : Rising ts) : Rising (t :: ts) := by
  refine List.pairwise_cons.mpr ⟨fun u hu => ?_, h⟩
  exact hover.inOrder_eq_false ((ht hp).2.2 t List.mem_cons_self) (hts u hu)

end Input.Over

/-- A clause begins with its keyword. -/
theorem Derives.beginsFrom_switchClause (hover : input.Over tokens)
    (h : Derives input .switchClause p q e [t]) :
    p < input.significant.size ∧ input.BeginsFrom p t := by
  have hforward := h.forward
  have hnode {kind : Kind} {ts : List Concrete} (hp : p < input.significant.size) (hpq : p < q) :
      p < input.significant.size ∧
        input.BeginsFrom p (input.nodeAt q kind (input.indexAt p) ts) := by
    have hq := hforward.2 (Nat.le_of_lt hp)
    exact ⟨hp, .inr ⟨rfl, hover.indexAt_lt_after_nodeAt hq hpq (Nat.le_refl _)⟩⟩
  cases h with
  | leaf _ htag => cases htag
  | missing htag => cases htag
  | caseClause hsees hcondition hcolon hbody =>
    have := hcondition.forward.1
    have := hcolon.forward.1
    have := hbody.forward.1
    exact hnode hsees.lt_size (by omega)
  | defaultClause hsees hcolon hbody =>
    have := hcolon.forward.1
    have := hbody.forward.1
    exact hnode hsees.lt_size (by omega)

/-- A row of the grammar is in order. -/
theorem Derives.rising (hover : input.Over tokens) (h : Derives input r p q e ts)
    (hr : r.isRow = true) : Rising ts ∧ ∀ t ∈ ts, input.BeginsFrom p t := by
  have hleaf (p : Nat) (tag : Kind) : input.BeginsFrom p (input.leafAt p tag) :=
    .inr ⟨rfl, input.start_lt_after_leafAt p tag⟩
  induction h with
  | leaf => exact ⟨List.pairwise_singleton _ _, List.forall_mem_singleton.mpr (hleaf _ _)⟩
  | @missing _ r _ htag =>
    cases r with
    | clauses | xmlParts => cases htag
    | _ => cases hr
  | xmlText hsees _ ih =>
    obtain ⟨hts, hbegins⟩ := ih rfl
    refine ⟨hover.rising_cons (.leafAt hsees (.inl rfl) hover) (Nat.le_of_lt hsees.lt_size)
      hbegins hts, List.forall_mem_cons.mpr ⟨hleaf _ _, fun u hu => ?_⟩⟩
    exact hover.beginsFrom_mono (hbegins u hu) (Nat.le_succ _)
  | xmlLast => exact ⟨List.pairwise_singleton _ _, List.forall_mem_singleton.mpr (hleaf _ _)⟩
  | xmlEmbedded hsees ht hclose _ _ ih =>
    obtain ⟨hts, hbegins⟩ := ih rfl
    have hfits := (ht.fits hover).upTo hclose.fits hover
    refine ⟨hover.rising_cons hfits hsees.lt_size hbegins hts, List.forall_mem_cons.mpr ⟨?_, ?_⟩⟩
    · exact .inl (hfits.start_gt hsees List.mem_cons_self)
    · intro u hu
      have := (hfits hsees.lt_size).1
      exact hover.beginsFrom_mono (hbegins u hu) (by omega)
  | xmlBroken | noMoreClauses => exact ⟨.nil, nofun⟩
  | nextClause ht _ _ ih =>
    obtain ⟨hts, hbegins⟩ := ih rfl
    obtain ⟨hp, hfirst⟩ := ht.beginsFrom_switchClause hover
    refine ⟨hover.rising_cons (ht.fits hover) (Nat.le_of_lt hp) hbegins hts,
      List.forall_mem_cons.mpr ⟨hfirst, fun u hu => ?_⟩⟩
    exact hover.beginsFrom_mono (hbegins u hu) ht.forward.1
  | strayTokens hle _ _ ih =>
    obtain ⟨hts, hbegins⟩ := ih rfl
    exact ⟨hts, fun u hu => hover.beginsFrom_mono (hbegins u hu) hle⟩
  | _ => cases hr

/-! Trees of the grammar. -/

theorem isPlain_of_accessTag? {k tag : Kind} (h : Rule.accessTag? k = some tag) :
    tag.isPlain = true := by
  unfold Rule.accessTag? at h
  split at h <;> cases h <;> rfl

theorem isPlain_of_leadingOperator? {k tag : Kind}
    (h : Production.leadingOperator? k = some tag) : tag.isPlain = true := by
  unfold Production.leadingOperator? at h
  split at h <;> cases h <;> rfl

theorem isPlain_of_trailingOperator? {k tag : Kind}
    (h : Production.trailingOperator? k = some tag) : tag.isPlain = true := by
  unfold Production.trailingOperator? at h
  split at h <;> cases h <;> rfl

theorem isPlain_of_precedence {k : Kind} {precedence : Precedence}
    (h : k.binaryPrecedence? = some precedence) : k.isPlain = true := by
  cases k <;> first | rfl | cases h

theorem isPlain_of_assignment {k : Kind} (h : k.isAssignmentOperator = true) :
    k.isPlain = true := by
  cases k <;> first | rfl | cases h

/-- Trees that are tidy. -/
def AllTidy (ts : List Concrete) : Prop := ∀ t ∈ ts, t.Tidy

namespace AllTidy
variable {us : List Concrete} {kind : Kind} {start : Nat}

theorem none : AllTidy [] := nofun

theorem append (hts : AllTidy ts) (hus : AllTidy us) : AllTidy (ts ++ us) :=
  List.forall_mem_append.mpr ⟨hts, hus⟩

theorem leaf (h : t.children = []) : AllTidy [t] := List.forall_mem_singleton.mpr (.childless h)

theorem inner {stop : Option Nat} (h : AllTidy ts) (hkind : kind.isPlain = true) :
    AllTidy [.inner kind start stop ts] :=
  List.forall_mem_singleton.mpr (.plain hkind h)

theorem node (h : AllTidy ts) (hkind : kind.isPlain = true) :
    AllTidy [input.nodeAt q kind start ts] := h.inner hkind

end AllTidy

/-- The items of an array have no row. -/
theorem Derives.items_plain (h : Derives input .items p q e ts) :
    ∀ t ∈ ts, t.kind.ordersChildren = false := by
  generalize hr : Rule.items = r at h
  induction h with
  | leaf _ htag =>
    subst hr
    cases htag
  | missing htag =>
    subst hr
    cases htag
  | noMoreItems => nofun
  | hole _ _ ih => exact List.forall_mem_cons.mpr ⟨rfl, ih hr⟩
  | lastItem => exact List.forall_mem_singleton.mpr rfl
  | item _ _ _ _ ih => exact List.forall_mem_cons.mpr ⟨rfl, ih hr⟩
  | _ => cases hr

/-- A node that begins with the token of rank `p` ends no earlier than the trees inside it. -/
theorem Input.Fits.last_le (h : input.Fits p q ts) (hover : input.Over tokens)
    (hp : p ≤ input.significant.size) {kind : Kind} : ∀ u ∈ ts, ∀ l, u.lastToken? = some l →
      ∃ s, (input.nodeAt q kind (input.indexAt p) ts).stop = some s ∧ l ≤ s := by
  obtain ⟨hpq, hq, hts⟩ := h hp
  intro u hu l hl
  have hge := (hts u hu).last_ge l hl
  have hlt := (hts u hu).last_lt l hl
  -- There is a tree with a token, so that something was read.
  rcases Nat.lt_or_eq_of_le hpq with hpq | rfl
  · obtain ⟨m, rfl⟩ : ∃ m, q = m + 1 := ⟨q - 1, by omega⟩
    have hstart : input.indexAt p ≤ input.indexAt m := hover.indexAt_mono (by omega)
    rw [Input.afterAt_succ hq] at hlt
    refine ⟨input.indexAt m, ?_, Nat.le_of_lt_succ hlt⟩
    rw [Input.nodeAt, Concrete.inner, Input.lastBefore_succ hq, Option.filter_some,
      decide_eq_true hstart, if_pos rfl]
  · omega

open AllTidy in
theorem Derives.tidy (hover : input.Over tokens) (h : Derives input r p q e ts) : AllTidy ts := by
  induction h with
  | one _ ih | something _ ih | lastMember _ ih | functionOperand _ ih | primaryOf _ ih
  | memberOf _ ih | trailingOf _ ih | unaryOf _ ih | binaryOf _ ih | conditionalOf _ ih
  | assignmentOf _ ih | expressionOf _ ih | declared _ ih | initialOf _ ih
  | initialVariables _ ih | blockStatement _ ih | functionStatement _ ih
  | nullStatement _ _ ih => exact ih
  | invalid _ _ ih | condition _ _ _ ih | orElse _ _ ih | variableStatement _ _ ih
  | expressionStatement _ _ _ _ ih | skipped _ _ _ _ _ ih | strayTokens _ _ _ ih => exact ih
  | nothing | lacking | noMoreItems | noMoreMembers | xmlBroken | noMoreStatements | noElse
  | noMoreClauses | noMoreCatches => exact none
  | leaf | missing | present | xmlLast | noItems | noClause | emptyStatement =>
    exact AllTidy.leaf rfl
  | more _ _ _ ih₁ ih₂ | nextMember _ _ _ ih₁ ih₂ | nextStatement _ _ _ ih₁ ih₂
  | nextClause _ _ ih₁ ih₂ | nextCatch _ _ ih₁ ih₂ | xmlEmbedded _ _ _ _ ih₁ ih₂ =>
    exact ih₁.append ih₂
  | hole _ _ ih | xmlText _ _ ih => exact (AllTidy.leaf rfl).append ih
  | clauseOf _ ih | lastItem _ ih => exact ih.inner rfl
  | item _ _ _ ih₁ ih₂ => exact (ih₁.inner rfl).append ih₂
  | someItems _ _ _ ih | paren _ _ _ ih | object _ _ _ ih | block _ _ _ ih | new _ _ ih
  | yield _ _ _ ih | declaration _ _ ih | filter _ _ ih | finalClause _ _ ih
  | constStatement _ _ _ ih | returnStatement _ _ _ _ ih | throwStatement _ _ _ ih
  | defaultClause _ _ _ ih => exact ih.node rfl
  | propertyInit _ _ _ ih₁ ih₂ | getter _ _ _ _ _ ih₁ ih₂ | unnamed _ _ _ ih₁ ih₂
  | index _ _ _ _ ih₁ ih₂ | call _ _ _ ih₁ ih₂ | commas _ _ _ ih₁ ih₂
  | initialized _ _ _ ih₁ ih₂ | iterate _ _ _ ih₁ ih₂ | caseClause _ _ _ _ ih₁ ih₂
  | doStatement _ _ _ _ _ ih₁ ih₂ | whileStatement _ _ _ ih₁ ih₂
  | withStatement _ _ _ ih₁ ih₂ => exact (ih₁.append ih₂).node rfl
  | setter _ _ _ _ _ _ ih₁ ih₂ ih₃ | choose _ _ _ _ _ ih₁ ih₂ ih₃
  | steps _ _ _ _ _ ih₁ ih₂ ih₃ | ifStatement _ _ _ _ ih₁ ih₂ ih₃
  | tryStatement _ _ _ _ ih₁ ih₂ ih₃ => exact (ih₁.append (ih₂.append ih₃)).node rfl
  | catchClause _ _ _ _ _ _ ih₁ ih₂ ih₃ => exact (ih₁.append (ih₂.append ih₃)).node rfl
  | newCall _ _ _ _ ih₁ ih₂ => exact ((ih₁.append ih₂).node rfl).node rfl
  | named _ _ _ _ _ ih₁ ih₂ => exact ((AllTidy.leaf rfl).append (ih₁.append ih₂)).node rfl
  | labelledStatement _ _ _ _ ih => exact ((AllTidy.leaf rfl).append ih).node rfl
  | namespaceStatement _ _ _ _ _ _ ih₁ ih₂ ih₃ =>
    exact ((AllTidy.leaf rfl).append ((AllTidy.leaf rfl).append
      ((ih₁.append ih₂).append ih₃))).node rfl
  | access _ _ htag _ ih₁ ih₂ => exact (ih₁.append ih₂).node (isPlain_of_accessTag? htag)
  | trailed _ _ htag _ ih => exact ih.node (isPlain_of_trailingOperator? htag)
  | leading _ htag _ ih => exact ih.node (isPlain_of_leadingOperator? htag)
  | operate _ _ hprecedence _ _ _ ih₁ ih₂ =>
    exact (ih₁.append ih₂).node (isPlain_of_precedence hprecedence)
  | assign _ _ hassigns _ ih₁ ih₂ => exact (ih₁.append ih₂).node (isPlain_of_assignment hassigns)
  | forStatement _ _ _ _ _ _ ih₁ ih₂ =>
    refine (ih₁.append ih₂).node ?_
    split <;> rfl
  | jumpStatement _ hk _ _ _ ih =>
    refine ih.node ?_
    rcases hk with rfl | rfl <;> rfl
  | array _ hitems _ ih =>
    refine List.forall_mem_singleton.mpr (.intro ⟨.nil, nofun, fun _ => ?_⟩ ih)
    exact hitems.items_plain
  | @xml p _ _ _ hsees hparts ih =>
    have hp : p ≤ input.significant.size := by
      rcases hsees with hsees | hsees <;> exact Nat.le_of_lt hsees.lt_size
    refine List.forall_mem_singleton.mpr
      (.intro ⟨(hparts.rising hover rfl).1, fun _ => ?_, nofun⟩ ih)
    exact (hparts.fits hover).last_le hover hp
  | switchStatement hsees ht hopen hclauses hclose ih₁ ih₂ =>
    have hinside := (ht.fits hover).seq
      (hopen.fits.seq ((hclauses.fits hover).upTo hclose.fits hover) hover) hover
    refine List.forall_mem_singleton.mpr
      (.intro ⟨(hclauses.rising hover rfl).1, fun _ => ?_, nofun⟩ (ih₁.append ih₂))
    exact (hsees.fits.seq hinside hover).last_le hover (Nat.le_of_lt hsees.lt_size)

/-- A script that is read is tidy, wherever the reading began. -/
theorem program_tidy (hover : input.Over tokens) {c c' : Cursor}
    (h : c.program input = (.ok t, c')) : t.Tidy := by
  obtain ⟨-, ts, rfl, e, -, hd⟩ := (program_eq_ok h).program
  exact .plain rfl (hd.tidy hover)

end ScriptTree
