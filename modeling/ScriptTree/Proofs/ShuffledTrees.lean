import ScriptTree.Proofs.DepthGuard
import ScriptTree.Proofs.OrderedRows

/-!
Trees whose rows are reordered. A row is put into the order of the source before it is used, so that
the order in which its trees were attached does not matter. This holds for trees of the grammar
only: elsewhere the place where a node ends may depend on which of its children is the last.
-/
namespace ScriptTree
open Lowered Lowering

/-- The order of the children of a node, and one that it may have instead: the first child of a
switch stays where it is. -/
inductive Kind.Reorders : Kind → List Concrete → List Concrete → Prop where
  | unchanged (kind : Kind) (ts : List Concrete) : Reorders kind ts ts
  | clauses (subject : Concrete) {ts ts' : List Concrete} : ts.Perm ts' →
      Reorders .switchKeyword (subject :: ts) (subject :: ts')
  | parts {ts ts' : List Concrete} : ts.Perm ts' → Reorders .xmlLiteral ts ts'

/-- Trees that differ in the order of the clauses of some switches and of the parts of some XML
literals. -/
inductive Concrete.Shuffled : Concrete → Concrete → Prop where
  | node {kind : Kind} {start : Nat} {stop : Option Nat} {text : Option String}
      {children between children' : List Concrete} :
      List.Forall₂ Shuffled children between → kind.Reorders between children' →
      Shuffled ⟨kind, start, stop, text, children⟩ ⟨kind, start, stop, text, children'⟩

namespace Kind.Reorders
variable {kind : Kind} {ts ts' : List Concrete}

theorem perm (h : kind.Reorders ts ts') : ts.Perm ts' := by
  cases h with
  | unchanged => exact .refl ts
  | clauses _ h => exact h.cons _
  | parts h => exact h

theorem eq_of_ordersChildren (h : kind.Reorders ts ts') (hkind : kind.ordersChildren = false) :
    ts' = ts := by
  cases h with
  | unchanged => rfl
  | clauses => cases hkind
  | parts => cases hkind

/-- The clauses of a switch are after its first child. -/
theorem perm_drop (h : Reorders .switchKeyword ts ts') : (ts.drop 1).Perm (ts'.drop 1) := by
  cases h with
  | unchanged => exact .refl _
  | clauses _ h => exact h

theorem getElem?_zero (h : Reorders .switchKeyword ts ts') : ts'[0]? = ts[0]? := by
  cases h <;> rfl

end Kind.Reorders

namespace Concrete
variable {t t' : Concrete} {ts ts' : List Concrete}

theorem heightOf_perm (h : ts.Perm ts') : heightOf ts' = heightOf ts := by
  induction h with
  | nil => rfl
  | cons _ _ ih => rw [heightOf, heightOf, ih]
  | swap => simp only [heightOf, Nat.max_left_comm]
  | trans _ _ ih₁ ih₂ => rw [ih₂, ih₁]

/-- Trees that reach equally far. -/
structure Level (t t' : Concrete) : Prop where
  start_eq : t'.start = t.start
  last_eq : t'.lastToken? = t.lastToken?
  height_eq : t'.height = t.height

theorem heightOf_eq (h : List.Forall₂ Level ts ts') : heightOf ts' = heightOf ts := by
  induction h with
  | nil => rfl
  | cons ht _ ih => rw [heightOf, heightOf, ht.height_eq, ih]

theorem lastTokenOf?_eq (h : List.Forall₂ Level ts ts') : lastTokenOf? ts' = lastTokenOf? ts := by
  induction h with
  | nil => rfl
  | cons ht hts ih =>
    rw [lastTokenOf?, lastTokenOf?, ht.last_eq, ih]
    cases hts <;> rfl

theorem inOrder_eq {u u' : Concrete} (ht : t.Level t') (hu : u.Level u') :
    inOrder t' u' = inOrder t u := by
  unfold inOrder
  rw [ht.start_eq, ht.last_eq, hu.start_eq, hu.last_eq]

theorem rising_of_level (h : List.Forall₂ Level ts ts') (hts : Rising ts) : Rising ts' := by
  refine pairwise_of_forall₂ h hts fun ht hu hrising => ?_
  rwa [inOrder_eq hu ht]

theorem Shuffled.refl : ∀ t : Concrete, t.Shuffled t
  | ⟨_, _, _, _, _⟩ => .node (List.forall₂_same.mpr fun u _ => refl u) (.unchanged _ _)
termination_by t => t.height
decreasing_by exact height_lt_of_mem_children ‹_›

/-- Reordering the rows of a tidy tree changes neither where it stands nor how high it is. -/
theorem Shuffled.level (ht : t.Tidy) (h : t.Shuffled t') : t.Level t' := by
  induction ht generalizing t' with
  | @intro t hordered _ ih =>
    cases h with
    | @node kind start stop text children between children' hchildren hreorders =>
      have hlevel : List.Forall₂ Level children between := by
        have hmem := (List.forall₂_and_left _ _).mpr ⟨fun u hu => hu, hchildren⟩
        exact hmem.imp fun u u' hu => ih u hu.1 hu.2
      refine ⟨rfl, ?_, ?_⟩
      · cases hkind : kind.ordersChildren with
        | false =>
          rw [hreorders.eq_of_ordersChildren hkind, lastToken?, lastToken?, lastTokenOf?_eq hlevel]
        | true =>
          -- Such a node ends where its own last token is, in any order of its children.
          rw [lastToken?_eq_stop (hordered.last_le hkind), lastToken?_eq_stop]
          intro u' hu' l hl
          obtain ⟨u, hu, hsame⟩ := exists_mem_of_forall₂ hlevel (hreorders.perm.mem_iff.mpr hu')
          exact hordered.last_le hkind u hu l (hsame.last_eq ▸ hl)
      · rw [height, height, heightOf_perm hreorders.perm, heightOf_eq hlevel]

/-- A tidy tree and one that comes of it. -/
def Matches (t t' : Concrete) : Prop := t.Tidy ∧ t.Shuffled t'

namespace Matches

theorem level (h : t.Matches t') : t.Level t' := Shuffled.level h.1 h.2

/-- The children of a tree and those that they become, in their old order. -/
theorem exists_between (h : t.Matches t') : ∃ between,
    List.Forall₂ Matches t.children between ∧ t.kind.Reorders between t'.children := by
  obtain ⟨ht, h⟩ := h
  cases h with
  | @node _ _ _ _ _ between _ hchildren hreorders =>
    exact ⟨between, (List.forall₂_and_left _ _).mpr ⟨fun u hu => ht.inside hu, hchildren⟩,
      hreorders⟩

theorem children (h : t.Matches t') (hkind : t.kind.ordersChildren = false) :
    List.Forall₂ Matches t.children t'.children := by
  obtain ⟨between, hchildren, hreorders⟩ := h.exists_between
  rwa [hreorders.eq_of_ordersChildren hkind]

/-- Sorting a row that was reordered gives what the trees of the row became. -/
theorem sorted_row {between : List Concrete} (hts : Rising ts)
    (hbetween : List.Forall₂ Matches ts between) (hperm : between.Perm ts') :
    List.Forall₂ Matches (sorted ts) (sorted ts') := by
  have hrising := rising_of_level (hbetween.imp fun _ _ h => h.level) hts
  rwa [hts.sorted_eq (.refl ts), hrising.sorted_eq hperm]

end Matches
end Concrete

namespace Pairing

/-- Tidy trees beside those that come of them. -/
def shuffled (cx : Lowering) (limit : Nat) : Pairing where
  cx
  limit
  same := Concrete.Matches
  kind_eq h := by
    obtain ⟨-, ⟨⟩⟩ := h
    rfl
  start_eq h := h.level.start_eq
  after_eq h := Concrete.after_of_lastToken? h.level.last_eq h.level.start_eq
  content_eq h := by
    obtain ⟨-, ⟨⟩⟩ := h
    rfl
  isEmpty_eq h := by
    obtain ⟨-, ⟨hchildren, hreorders⟩⟩ := h
    rw [Concrete.isEmpty, Concrete.isEmpty, ← hreorders.perm.isEmpty_eq]
    cases hchildren <;> rfl
  children := Concrete.Matches.children
  items h hkind := by
    have hchildren := h.children (by rw [hkind]; rfl)
    have hplain := (List.forall₂_and_left _ _).mpr ⟨h.1.ordered.items hkind, hchildren⟩
    exact hplain.imp fun u u' hu => ⟨hu.2, hu.2.children hu.1⟩
  subject h hkind := by
    obtain ⟨between, hchildren, hreorders⟩ := h.exists_between
    rw [hkind] at hreorders
    rw [Concrete.child?, Concrete.child?, hreorders.getElem?_zero]
    exact rel_getElem? hchildren 0
  clauses h hkind := by
    obtain ⟨between, hchildren, hreorders⟩ := h.exists_between
    have hrising := h.1.ordered.rising
    rw [Concrete.row, hkind] at hrising
    rw [hkind] at hreorders
    exact Concrete.Matches.sorted_row hrising (List.forall₂_drop 1 hchildren) hreorders.perm_drop
  parts h hkind := by
    obtain ⟨between, hchildren, hreorders⟩ := h.exists_between
    have hrising := h.1.ordered.rising
    rw [Concrete.row, hkind] at hrising
    exact Concrete.Matches.sorted_row hrising hchildren hreorders.perm

/-- The same two lowerings, the other one first. -/
def flip (w : Pairing) : Pairing where
  cx := w.cx
  limit := w.limit
  same t t' := w.same t' t
  kind_eq h := (w.kind_eq h).symm
  start_eq h := (w.start_eq h).symm
  after_eq h := (w.after_eq h).symm
  content_eq h := (w.content_eq h).symm
  isEmpty_eq h := (w.isEmpty_eq h).symm
  children h hkind := (w.children h (w.kind_eq h ▸ hkind)).flip
  items h hkind := by
    refine ((w.items h (w.kind_eq h ▸ hkind)).imp fun _ _ hu => ?_).flip
    exact ⟨hu.1, hu.2.flip⟩
  subject h hkind := by
    have hsubject := w.subject h (w.kind_eq h ▸ hkind)
    generalize Concrete.child? _ 0 = x at hsubject ⊢
    generalize Concrete.child? _ 0 = y at hsubject ⊢
    cases hsubject with
    | none => exact .none
    | some hu => exact .some hu
  clauses h hkind := (w.clauses h (w.kind_eq h ▸ hkind)).flip
  parts h hkind := (w.parts h (w.kind_eq h ▸ hkind)).flip

end Pairing

/-- Lowerings within the same limit, each of them like the other, come to the same. -/
theorem Lowered.Alike.eq {α : Type} {limit : Nat} {P Q : α → Prop} {x y : Lowered α}
    (h : Alike limit P x y) (h' : Alike limit Q y x) : x = y := by
  cases h with
  | tooDeep =>
    cases h' with
    | tooDeep => rfl
    | failed => rfl
  | failed => rfl
  | given => rfl

/-- Reordering the rows of a tidy tree does not change what it is lowered to. -/
theorem ofConcrete_shuffled (tokens : Array Token) (limit : Nat) {t t' : Concrete}
    (ht : t.Tidy) (h : t.Shuffled t') :
    Script.ofConcrete tokens limit (some t') = Script.ofConcrete tokens limit (some t) := by
  let w : Pairing := .shuffled (.ofTokens tokens) limit
  have hsame : w.same t t' := ⟨ht, h⟩
  have hheight := (Concrete.Matches.level hsame).height_eq
  exact (w.flip.alike_script rfl (Nat.le_refl limit) (.some ⟨hsame, hheight.symm⟩)).eq
    (w.alike_script rfl (Nat.le_refl limit) (.some ⟨hsame, hheight⟩))

/-! The clauses of a switch. -/

/-- The clauses of a switch. -/
def Node.clauses? : Node → Option (List Node)
  | .switchStatement _ _ _ _ _ _ clauses _ => some clauses
  | _ => none

theorem Node.hasRow_of_clauses? {n : Node} {clauses : List Node}
    (h : n.clauses? = some clauses) : n.hasRow = true := by
  cases n <;> first | rfl | cases h

section
variable {cx : Lowering} {b : Builder} {t : Concrete} {a : Ancestry}

/-- A clause begins where its tree does. -/
theorem start_switchClause :
    Gives (fun n => n.range.start = cx.offset t.start) (cx.switchClause b t a) := by
  unfold Lowering.switchClause
  split
  · unfold Lowering.caseClause
    iterate 4 refine gives_any.bind fun _ _ => ?_
    exact gives_ok rfl
  · unfold Lowering.defaultClause
    iterate 2 refine gives_any.bind fun _ _ => ?_
    exact gives_ok rfl
  · exact gives_error

/-- Only the rule for switches makes a node with clauses. -/
theorem Lowering.Gathers.switchStatement_of_clauses? {n : Node} {clauses : List Node}
    (h : Gathers cx b t n) (hclauses : n.clauses? = some clauses) :
    ∃ a, cx.switchStatement b t a = .ok n := by
  have hkind : n.kind = .switchStatement := by
    cases n <;> first | rfl | cases hclauses
  cases h with
  | switchStatement _ h => exact ⟨_, h⟩
  | call hother | function hother | array hother | object hother | comma hother
  | variableDeclaration hother | constStatement hother =>
    rw [hkind] at hother
    cases hother

end

/-- Nodes that begin where trees in the order of the source do. -/
theorem starts_of_inOrder {tokens : Array Token} {ts : List Concrete} {ns : List Node}
    (h : List.Forall₂
      (fun t n => n.range.start = TokenTable.offset (.ofTokens tokens) t.start) ts ns)
    (hts : ts.Pairwise fun t u => inOrder t u = true) :
    ns.Pairwise fun m n => m.range.start ≤ n.range.start := by
  refine starts_sorted_of_forall₂ h (hts.imp fun {t u} hinOrder => ?_)
  unfold inOrder at hinOrder
  grind

/-- The clauses of a switch are in the order of the source, whatever their trees are. -/
theorem clauses_switchStatement {tokens : Array Token} {b : Builder} {t : Concrete}
    {a : Ancestry} : Gives (fun n => ∀ clauses, n.clauses? = some clauses →
      clauses.Pairwise fun m n => m.range.start ≤ n.range.start)
    (Lowering.switchStatement (.ofTokens tokens) b t a) := by
  unfold Lowering.switchStatement
  refine gives_any.bind fun word _ => gives_any.bind fun conditionTree _ => ?_
  refine (gives_forall₂ fun u _ => start_switchClause).bind fun clauses hclauses => ?_
  refine gives_any.bind fun condition _ => gives_ok ?_
  rintro _ ⟨⟩
  refine starts_of_inOrder hclauses ?_
  exact @List.pairwise_mergeSort _ inOrder (fun _ _ _ => inOrder_trans) inOrder_total _

/-- The order in which clauses and XML parts are attached does not matter in a tree of the grammar,
and whatever the tree, the clauses of a switch come out in the order of the source. -/
theorem ofConcrete_order_free (tokens : Array Token) :
    (∀ (lines : LineMap) (levels : Nat) (c c' : Cursor) (tree tree' : Concrete),
      c.program (.ofTokens tokens lines levels) = (.ok tree, c') → tree.Shuffled tree' →
      ∀ limit, Script.ofConcrete tokens limit (some tree') =
        Script.ofConcrete tokens limit (some tree)) ∧
    ∀ (tree : Option Concrete) (limit : Nat) (script : Script),
      Script.ofConcrete tokens limit tree = .ok script →
      ∀ n ∈ script.toNode.preorder, ∀ clauses, n.clauses? = some clauses →
        clauses.Pairwise fun m n => m.range.start ≤ n.range.start := by
  constructor
  · intro lines levels c c' tree tree' hread hshuffled limit
    have htidy := program_tidy (Input.ofTokens_over tokens lines levels) hread
    exact ofConcrete_shuffled tokens limit htidy hshuffled
  · intro tree limit script hscript n hn clauses hclauses
    have hgrown := (Pairing.alike_any tokens tree (Nat.le_refl limit)).gives script hscript
    obtain ⟨fuel, t, _, _, hgathers⟩ :=
      Pairing.made_of_hasRow hgrown hn (Node.hasRow_of_clauses? hclauses)
    obtain ⟨a, hswitch⟩ := hgathers.switchStatement_of_clauses? hclauses
    exact clauses_switchStatement n hswitch clauses hclauses

/-- The clauses of a switch, the last one attached first. -/
theorem ofConcrete_order_free_switch :
    let token (kind : Kind) (text : String) (column : Nat) : Token :=
      ⟨kind, text, 1, column, column, false, false⟩
    let tokens := #[token .switchKeyword "switch" 0, token .openParen "(" 6,
      token .identifier "a" 7, token .closeParen ")" 8, token .openBrace "\x7b" 9,
      token .caseKeyword "case" 10, token .stringLiteral "''" 14, token .colon ":" 16,
      token .defaultKeyword "default" 17, token .colon ":" 24, token .closeBrace "\x7d" 25]
    let lines := LineMap.ofText "switch(a)\x7bcase'':default:\x7d"
    let first : Concrete := .inner .caseKeyword 5 (some 7) [.leaf .stringLiteral 6 "''"]
    let second : Concrete := .inner .defaultKeyword 8 (some 9) []
    let tree (clauses : List Concrete) : Concrete := .inner .script 0 (some 10)
      [.inner .switchKeyword 0 (some 10) (.leaf .identifier 2 "a" :: clauses)]
    let clauses : List Node :=
      [.caseClause ⟨10, 17⟩ ⟨⟨10, 14⟩, .caseKeyword⟩ (.literal ⟨14, 16⟩ .string "''") (some 16) [],
        .defaultClause ⟨17, 25⟩ ⟨⟨17, 24⟩, .defaultKeyword⟩ (some 24) []]
    let statement : Node := .switchStatement ⟨0, 26⟩ ⟨⟨0, 6⟩, .switchKeyword⟩ (some 6)
      (.identifier ⟨7, 8⟩ "a") (some 8) (some 9) clauses (some 25)
    Cursor.initial.program (.ofTokens tokens lines 200) =
        (.ok (tree [first, second]), ⟨11, 0, #[]⟩) ∧
      (tree [first, second]).Shuffled (tree [second, first]) ∧
      Script.ofConcrete tokens 200 (some (tree [second, first])) =
        .ok ⟨⟨0, 26⟩, [statement], []⟩ ∧
      clauses.Pairwise fun m n => m.range.start ≤ n.range.start := by
  intro token tokens lines first second tree clauses statement
  -- The row of clauses is in order as it is, so that the switch is lowered without sorting.
  let cx : Lowering := .ofTokens tokens
  let switch := Concrete.inner .switchKeyword 0 (some 10) [.leaf .identifier 2 "a", first, second]
  have hswitch : cx.switchStatement (.within cx 200 7) switch .root = .ok statement := by
    have hsorted : sorted [first, second] = [first, second] :=
      List.mergeSort_of_pairwise (by decide)
    unfold switchStatement
    rw [show sorted (switch.children.drop 1) = [first, second] from hsorted]
    -- Closed terms are evaluated much faster.
    clear hsorted
    revert token
    exact rfl
  have hscript : Script.ofConcrete tokens 200 (some (tree [first, second])) =
      .ok ⟨⟨0, 26⟩, [statement], []⟩ := by
    have hone : cx.statements 200 (tree [first, second]) =
        (cx.switchStatement (.within cx 200 7) switch .root).map fun s => [s] := rfl
    rw [hswitch] at hone
    unfold Script.ofConcrete
    dsimp only
    rw [if_pos (by rfl), hone]
    clear hswitch hone
    revert token
    exact rfl
  have hread : Cursor.initial.program (.ofTokens tokens lines 200) =
      (.ok (tree [first, second]), ⟨11, 0, #[]⟩) := by
    clear hswitch hscript
    revert token
    exact rfl
  have hswap : (tree [first, second]).Shuffled (tree [second, first]) := by
    refine .node (.cons (.node ?_ (.clauses (.leaf .identifier 2 "a") (.swap ..))) .nil)
      (.unchanged _ _)
    exact List.forall₂_same.mpr fun u _ => .refl u
  refine ⟨hread, hswap, ?_, ?_⟩
  · rw [(ofConcrete_order_free tokens).1 lines 200 _ _ _ _ hread hswap 200, hscript]
  · refine (ofConcrete_order_free tokens).2 _ _ _ hscript statement ?_ clauses rfl
    exact Node.mem_preorder_of_mem_children (by simp [Script.toNode, Node.children])
      (Node.mem_preorder_self _)

end ScriptTree
