import ScriptTree.Proofs.InnermostNode
import ScriptTree.Proofs.LoweringPairs
import ScriptTree.Proofs.TreeStarts

/-!
The order of what is inside a script. Its statements and its comments are interleaved by their
starts, so that none is lost. Both of them are in order already, in text with faults too: a
statement begins where its tree does, and the trees begin in the order in which they were read.
-/
namespace ScriptTree
open Lowered Lowering

/-! Where nodes begin. -/

/-- Node `n` begins with the first token of tree `t`. -/
def Lowering.Heads (cx : Lowering) (t : Concrete) (n : Node) : Prop :=
  n.range.start = cx.offset t.start

/-- What is built of a tree that is left flush begins where the tree does. -/
structure Builder.Heads (cx : Lowering) (b : Builder) : Prop where
  expression : ∀ t a, t.LeftFlush → Gives (cx.Heads t) (b.expression t a)
  statement : ∀ t a bound, t.LeftFlush → Gives (cx.Heads t) (b.statement t a bound)

theorem Concrete.LeftFlush.first {t u : Concrete} {us : List Concrete} (ht : t.LeftFlush)
    (hkind : t.kind.leadsWithOperand = true) (hchildren : t.children = u :: us) :
    u.start = t.start ∧ u.LeftFlush := by
  cases ht with
  | plain h =>
    rw [hkind] at h
    cases h
  | childless h =>
    rw [hchildren] at h
    cases h
  | operand h hstart hu =>
    rw [hchildren] at h
    cases h
    exact ⟨hstart, hu⟩

section
variable {cx : Lowering} {b : Builder} {t : Concrete} {a : Ancestry}

theorem gives_first_child {what : String} :
    Gives (fun u => ∃ us, t.children = u :: us) (child t 0 what) := by
  unfold Lowering.child Concrete.child?
  cases t.children with
  | nil => exact gives_error
  | cons u us => exact gives_ok ⟨us, rfl⟩

/-! Rules that give a node the range of its tree. -/

theorem heads_block : Gives (cx.Heads t) (cx.block b t a) := by
  unfold Lowering.block
  split
  · exact gives_error
  · refine gives_any.bind fun _ _ => ?_
    exact gives_ok rfl

theorem heads_function : Gives (cx.Heads t) (cx.function b t a) := by
  unfold Lowering.function
  refine gives_any.bind fun _ _ => ?_
  split
  dsimp only
  split
  · refine Gives.next rfl ?_
    iterate 3 refine gives_any.bind fun _ _ => ?_
    exact gives_ok rfl
  · exact gives_error

theorem heads_identifier : Gives (cx.Heads t) (cx.identifier t a) := by
  unfold Lowering.identifier
  split
  · exact gives_ok rfl
  · exact gives_error

theorem heads_keywordOperation : Gives (cx.Heads t) (cx.keywordOperation b t a) := by
  unfold Lowering.keywordOperation
  refine gives_any.bind fun word _ => ?_
  dsimp only
  split
  · refine gives_any.bind fun _ _ => ?_
    exact gives_ok rfl
  · split
    · exact Gives.next rfl (gives_ok rfl)
    · exact gives_error

theorem heads_unary {trailing : Bool} : Gives (cx.Heads t) (cx.unary b t a trailing) := by
  unfold Lowering.unary
  refine gives_any.bind fun _ _ => ?_
  cases trailing with
  | false =>
    iterate 2 refine gives_any.bind fun _ _ => ?_
    exact gives_ok rfl
  | true =>
    iterate 2 refine gives_any.bind fun _ _ => ?_
    exact gives_ok rfl

theorem heads_object : Gives (cx.Heads t) (cx.object b t a) := by
  unfold Lowering.object
  dsimp only
  split
  · refine Gives.next rfl ?_
    iterate 2 refine gives_any.bind fun _ _ => ?_
    exact gives_ok rfl
  · exact gives_error

theorem heads_forLoop : Gives (cx.Heads t) (cx.forLoop b t a) := by
  unfold Lowering.forLoop
  refine gives_any.bind fun head _ => gives_any.bind fun body _ => ?_
  split
  · unfold Lowering.forStatement
    iterate 8 refine gives_any.bind fun _ _ => ?_
    exact gives_ok rfl
  · unfold Lowering.forInStatement
    iterate 3 refine gives_any.bind fun _ _ => ?_
    dsimp only
    split
    · refine Gives.next rfl ?_
      iterate 3 refine gives_any.bind fun _ _ => ?_
      exact gives_ok rfl
    · exact gives_error
  · exact gives_error

theorem heads_defaultXmlNamespace : Gives (cx.Heads t) (cx.defaultXmlNamespace b t a) := by
  unfold Lowering.defaultXmlNamespace
  split
  · iterate 4 refine gives_any.bind fun _ _ => ?_
    exact gives_ok rfl
  · exact gives_error

/-! Rules whose node may begin with its first operand. -/

variable (hb : b.Heads cx) (ht : t.LeftFlush)
include hb ht

/-- The first operand of a tree that begins with it. -/
theorem Builder.Heads.operand {u : Concrete} {us : List Concrete} {a : Ancestry}
    (hkind : t.kind.leadsWithOperand = true) (hchildren : t.children = u :: us) :
    Gives (cx.Heads t) (b.expression u a) := by
  obtain ⟨hstart, hu⟩ := ht.first hkind hchildren
  refine (hb.expression u a hu).mono fun n hn => ?_
  rw [Lowering.Heads, hn, hstart]

theorem heads_wrapped (hkind : t.kind = .expr) : Gives (cx.Heads t) (cx.wrapped b t a) := by
  unfold Lowering.wrapped
  split
  · exact gives_ok rfl
  · exact hb.operand ht (by rw [hkind]; rfl) ‹_›
  · exact gives_error

theorem heads_binary (hkind : t.kind.isBinaryOperator = true) :
    Gives (cx.Heads t) (cx.binary b t a) := by
  have hleads : t.kind.leadsWithOperand = true := by
    rw [Kind.leadsWithOperand, hkind, Bool.or_true]
  unfold Lowering.binary
  refine gives_first_child.bind fun leftTree ⟨_, hchildren⟩ => ?_
  iterate 2 refine gives_any.bind fun _ _ => ?_
  refine (hb.operand ht hleads hchildren).bind fun left hstart => ?_
  refine gives_any.bind fun _ _ => ?_
  exact gives_ok hstart

theorem heads_asterisk (hkind : t.kind = .asterisk) :
    Gives (cx.Heads t) (cx.asterisk b t a (cx.binary b t a)) := by
  unfold Lowering.asterisk
  split
  · exact gives_ok rfl
  · exact hb.operand ht (by rw [hkind]; rfl) ‹_›
  · exact heads_binary hb ht (by rw [hkind]; rfl)

theorem heads_expression {limit : Nat} : Gives (cx.Heads t) (cx.expression limit b t a) := by
  unfold Lowering.expression
  refine Gives.then ?_
  split
  · exact heads_wrapped hb ht (by assumption)
  · exact heads_asterisk hb ht (by assumption)
  -- The other nodes begin where their trees do, whatever is inside them.
  iterate 2 exact gives_ok rfl
  · unfold Lowering.thisExpression
    exact gives_any.bind fun _ _ => gives_ok rfl
  · exact heads_identifier
  · unfold Lowering.parenthesized
    iterate 3 refine gives_any.bind fun _ _ => ?_
    exact gives_ok rfl
  · unfold Lowering.comma
    iterate 2 refine gives_any.bind fun _ _ => ?_
    exact gives_ok rfl
  · unfold Lowering.call
    iterate 4 refine gives_any.bind fun _ _ => ?_
    exact gives_ok rfl
  iterate 3
    unfold Lowering.selector
    iterate 5 refine gives_any.bind fun _ _ => ?_
    exact gives_ok rfl
  · unfold Lowering.arrayItem
    iterate 4 refine gives_any.bind fun _ _ => ?_
    exact gives_ok rfl
  · unfold Lowering.newExpression
    iterate 3 refine gives_any.bind fun _ _ => ?_
    exact gives_ok rfl
  · unfold Lowering.conditional
    iterate 7 refine gives_any.bind fun _ _ => ?_
    exact gives_ok rfl
  iterate 4 exact heads_keywordOperation
  iterate 8 exact heads_unary
  · unfold Lowering.array
    iterate 3 refine gives_any.bind fun _ _ => ?_
    exact gives_ok rfl
  · exact heads_object
  · exact heads_function
  · unfold Lowering.variableDeclaration
    iterate 3 refine gives_any.bind fun _ _ => ?_
    exact gives_ok rfl
  · unfold Lowering.xmlLiteral
    refine gives_any.bind fun _ _ => ?_
    exact gives_ok rfl
  · split
    · exact gives_ok rfl
    · split
      · exact heads_binary hb ht (by assumption)
      · exact gives_error

theorem heads_expressionStatement {bound : Nat} :
    Gives (cx.Heads t) (cx.expressionStatement b t a bound) := by
  unfold Lowering.expressionStatement
  refine (hb.expression t _ ht).bind fun inside hstart => gives_ok ?_
  rw [Lowering.Heads, Node.range]
  split
  · exact hstart
  · exact hstart

theorem heads_statement {limit bound : Nat} :
    Gives (cx.Heads t) (cx.statement limit b t a bound) := by
  unfold Lowering.statement
  refine Gives.then ?_
  split
  · exact heads_block
  · exact gives_ok rfl
  · unfold Lowering.constStatement
    iterate 3 refine gives_any.bind fun _ _ => ?_
    exact gives_ok rfl
  · unfold Lowering.ifStatement
    iterate 6 refine gives_any.bind fun _ _ => ?_
    exact gives_ok rfl
  · unfold Lowering.whileStatement
    iterate 5 refine gives_any.bind fun _ _ => ?_
    exact gives_ok rfl
  · unfold Lowering.doWhileStatement
    iterate 5 refine gives_any.bind fun _ _ => ?_
    exact gives_ok rfl
  iterate 2 exact heads_forLoop
  · unfold Lowering.switchStatement
    iterate 4 refine gives_any.bind fun _ _ => ?_
    exact gives_ok rfl
  · unfold Lowering.tryStatement
    iterate 4 refine gives_any.bind fun _ _ => ?_
    exact gives_ok rfl
  · unfold Lowering.throwStatement
    iterate 3 refine gives_any.bind fun _ _ => ?_
    exact gives_ok rfl
  · unfold Lowering.returnStatement
    iterate 2 refine gives_any.bind fun _ _ => ?_
    exact gives_ok rfl
  iterate 2
    unfold Lowering.jumpStatement
    refine gives_any.bind fun _ _ => ?_
    exact gives_ok rfl
  · unfold Lowering.labelledStatement
    iterate 3 refine gives_any.bind fun _ _ => ?_
    exact gives_ok rfl
  · unfold Lowering.withStatement
    iterate 5 refine gives_any.bind fun _ _ => ?_
    exact gives_ok rfl
  · exact heads_defaultXmlNamespace
  · split
    · exact heads_function
    · exact heads_expressionStatement hb ht
  · exact heads_expressionStatement hb ht

end

/-- Whatever the number of steps, what is built of a tree begins where the tree does. -/
theorem Builder.within_heads (cx : Lowering) (limit n : Nat) :
    (Builder.within cx limit n).Heads cx := by
  induction n with
  | zero => exact ⟨fun _ _ _ => gives_error, fun _ _ _ _ => gives_error⟩
  | succ n ih =>
    exact ⟨fun _ _ ht => heads_expression ih ht, fun _ _ _ ht => heads_statement ih ht⟩

/-- The statements of a script are sorted by their starts, in text with faults too. -/
theorem parse_statements_sorted [Alphabet] (source : String) (options : ParseOptions) :
    (parse source options).script.statements.Pairwise fun m n => m.range.start ≤ n.range.start := by
  have hover := (Input.ofSource_cuts source options.xmlLiterals).toOver
  rcases parse_script_cases source options with hempty | ⟨root, c, hread, hscript⟩
  · rw [hempty]
    exact .nil
  · obtain ⟨ts, rfl, hts⟩ := program_derives hread
    obtain ⟨statements, hstatements, heq⟩ := ofConcrete_eq_ok hscript
    have hheads := gives_forall₂
      (fun t ht => (Builder.within_heads _ _ _).statement t _ _ (hts.leftFlush_of_statements t ht))
      statements hstatements
    rw [heq]
    exact starts_sorted_of_forall₂ hheads (hts.starts_sorted hover (Nat.zero_le _))

/-! Statements and comments together. -/

/-- Something directly inside a script. -/
abbrev Script.Item := Comment ⊕ Node

namespace Script

namespace Item

def node : Item → Node
  | .inl c => .comment c
  | .inr n => n

def start (x : Item) : Nat := x.node.range.start

/-- Whether item `x` may stand before `y`: by their starts, and a comment before a statement. -/
def mayPrecede (x y : Item) : Bool :=
  x.start < y.start || (x.start == y.start && (x.isLeft || y.isRight))

theorem mayPrecede_iff {x y : Item} : x.mayPrecede y = true ↔
    x.start < y.start ∨ x.start = y.start ∧ (x.isLeft = true ∨ y.isRight = true) := by
  simp [mayPrecede]

theorem mayPrecede_trans {x y z : Item} (hxy : x.mayPrecede y = true)
    (hyz : y.mayPrecede z = true) : x.mayPrecede z = true := by
  rw [mayPrecede_iff] at hxy hyz ⊢
  cases y <;> grind

theorem mayPrecede_total (x y : Item) : (x.mayPrecede y || y.mayPrecede x) = true := by
  rw [Bool.or_eq_true, mayPrecede_iff, mayPrecede_iff]
  cases x <;> cases y <;> grind

end Item

/-- The comments of a script between its statements. -/
def items (s : Script) : List Item :=
  (s.comments.map .inl).merge (s.statements.map .inr) Item.mayPrecede

/-- What is directly inside a script are its items, in their order. -/
theorem map_node_items (s : Script) : s.items.map Item.node = s.toNode.children := by
  rw [items, List.map_merge (s := Node.startsNoLater)]
  · simp [toNode, Node.children, Function.comp_def, Item.node]
  · intro x hx y hy
    obtain ⟨c, _, rfl⟩ := List.mem_map.mp hx
    obtain ⟨n, _, rfl⟩ := List.mem_map.mp hy
    rw [Bool.eq_iff_iff, Item.mayPrecede_iff]
    simp [Node.startsNoLater, Item.start, Nat.le_iff_lt_or_eq]

end Script

/-- What is left of an interleaving when the items of one of its lists are taken away is the other
list. -/
theorem filterMap_merge {α β : Type} (le : α ⊕ β → α ⊕ β → Bool) (as : List α) (bs : List β) :
    ((as.map .inl).merge (bs.map .inr) le).filterMap Sum.getLeft? = as ∧
      ((as.map .inl).merge (bs.map .inr) le).filterMap Sum.getRight? = bs := by
  induction as generalizing bs with
  | nil => simp [List.filterMap_map, Function.comp_def]
  | cons a as iha =>
    induction bs with
    | nil => simp [List.filterMap_map, Function.comp_def]
    | cons b bs ihb =>
      rw [List.map_cons, List.map_cons, List.cons_merge_cons]
      split
      · obtain ⟨hleft, hright⟩ := iha (b :: bs)
        rw [List.map_cons] at hleft hright
        constructor
        · rw [List.filterMap_cons_some Sum.getLeft?_inl, hleft]
        · rw [List.filterMap_cons_none rfl, hright]
      · obtain ⟨hleft, hright⟩ := ihb
        rw [List.map_cons] at hleft hright
        constructor
        · rw [List.filterMap_cons_none rfl, hleft]
        · rw [List.filterMap_cons_some Sum.getRight?_inr, hright]

namespace Script

/-- The items of a script are sorted if its statements and its comments are. -/
theorem items_sorted {s : Script}
    (hstatements : s.statements.Pairwise fun m n => m.range.start ≤ n.range.start)
    (hcomments : s.comments.Pairwise fun c d => c.range.start ≤ d.range.start) :
    s.items.Pairwise fun x y => x.mayPrecede y = true := by
  apply List.pairwise_merge
  · exact fun x y z => Item.mayPrecede_trans
  · exact Item.mayPrecede_total
  · refine List.pairwise_map.mpr (hcomments.imp fun {c d} hle => Item.mayPrecede_iff.mpr ?_)
    exact (Nat.lt_or_eq_of_le hle).imp id fun heq => ⟨heq, .inl rfl⟩
  · refine List.pairwise_map.mpr (hstatements.imp fun {m n} hle => Item.mayPrecede_iff.mpr ?_)
    exact (Nat.lt_or_eq_of_le hle).imp id fun heq => ⟨heq, .inr rfl⟩

end Script

/-- The comments of a script come one after the other. -/
theorem parse_comments_apart [Alphabet] (source : String) (options : ParseOptions) :
    (parse source options).script.comments.Pairwise fun c d =>
      c.range.start ≤ d.range.start ∧ c.range.stop ≤ d.range.start := by
  rcases parse_script_cases source options with hempty | ⟨root, c, hread, hscript⟩
  · rw [hempty]
    exact .nil
  · obtain ⟨statements, hstatements, heq⟩ := ofConcrete_eq_ok hscript
    rw [heq]
    refine (comments_apart _).imp_of_mem fun hc _ hle => ⟨?_, hle⟩
    exact Nat.le_trans (range_of_mem_comments hc).1 hle

/-- What is inside a script is an interleaving of its comments and its statements, sorted by their
starts if they are, and then with a comment before a statement that starts where it does. In a
script that was parsed both are sorted, and its comments do not overlap, in text with faults too. -/
theorem script_children_interleaved [Alphabet] :
    (∀ s : Script, ∃ items : List Script.Item,
      s.toNode.children = items.map Script.Item.node ∧
      items.filterMap Sum.getLeft? = s.comments ∧
      items.filterMap Sum.getRight? = s.statements ∧
      (s.statements.Pairwise (fun m n => m.range.start ≤ n.range.start) →
        s.comments.Pairwise (fun c d => c.range.start ≤ d.range.start) →
        items.Pairwise fun x y => x.start < y.start ∨
          x.start = y.start ∧ (x.isLeft = true ∨ y.isRight = true))) ∧
    ∀ (source : String) (options : ParseOptions),
      let script := (parse source options).script
      script.statements.Pairwise (fun m n => m.range.start ≤ n.range.start) ∧
      script.comments.Pairwise (fun c d => c.range.start ≤ d.range.start) ∧
      script.comments.Pairwise (fun c d => c.range.stop ≤ d.range.start) := by
  constructor
  · intro s
    obtain ⟨hcomments, hstatements⟩ :=
      filterMap_merge Script.Item.mayPrecede s.comments s.statements
    refine ⟨s.items, s.map_node_items.symm, hcomments, hstatements, fun hns hcs => ?_⟩
    exact (Script.items_sorted hns hcs).imp Script.Item.mayPrecede_iff.mp
  · intro source options script
    have hcomments := parse_comments_apart source options
    exact ⟨parse_statements_sorted source options, hcomments.imp And.left,
      hcomments.imp And.right⟩

/-- After an unknown character, what is missing begins where a comment does. -/
theorem script_children_interleaved_missing :
    let script := (parse "#/* c */;" .default).script
    let missing : Node := .expressionStatement ⟨1, 1⟩ (.emptyAt 1) none
    script.toNode.children =
        [.comment ⟨⟨1, 8⟩, "/* c */", .multiLine⟩, missing, .emptyStatement ⟨8, 9⟩] ∧
      script.statements.Pairwise (fun m n => m.range.start ≤ n.range.start) ∧
      ∃ items : List Script.Item, script.toNode.children = items.map Script.Item.node ∧
        items.Pairwise fun x y => x.start < y.start ∨
          x.start = y.start ∧ (x.isLeft = true ∨ y.isRight = true) := by
  intro script missing
  have hscript : script.toNode = .script ⟨0, 9⟩ [missing, .emptyStatement ⟨8, 9⟩]
      [⟨⟨1, 8⟩, "/* c */", .multiLine⟩] := rfl
  have hchildren : script.toNode.children =
      [.comment ⟨⟨1, 8⟩, "/* c */", .multiLine⟩, missing, .emptyStatement ⟨8, 9⟩] := by
    simp [hscript, missing, Node.children, Node.startsNoLater, Node.range]
  have hsorted := script_children_interleaved.2 "#/* c */;" .default
  obtain ⟨items, hnodes, -, -, hitems⟩ := script_children_interleaved.1 script
  exact ⟨hchildren, hsorted.1, items, hnodes, hitems hsorted.1 hsorted.2.1⟩

end ScriptTree
