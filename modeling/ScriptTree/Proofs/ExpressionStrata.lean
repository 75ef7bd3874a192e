import ScriptTree.Proofs.StatementReads

/-!
Strata of expressions. In a concrete tree an operand is never looser than its operator allows: the
left operand of a binary operator binds at least as tightly as the operator and the right one more
tightly, a unary operator takes no operand that has a binary one at its root, and commas stand
between items only where nothing encloses them. This holds of every tree that the grammar builds,
whether or not the text is well-formed.
-/
namespace ScriptTree

namespace Kind

/-- Tags of operators with a single operand. -/
def isUnaryOperator : Kind → Bool
  | .deleteKeyword | .voidKeyword | .typeOfKeyword | .plusPlus | .minusMinus | .unaryPlus
  | .unaryMinus | .tilde | .exclamation | .postIncrement | .postDecrement => true
  | _ => false

/-- Tags of member accesses and calls, which begin with the expression that they are made on. -/
def takesObject : Kind → Bool
  | .byField | .dotDot | .colonColon | .byIndex | .call => true
  | _ => false

/-- Tags of nodes that hold expressions with commas between them. -/
def holdsItems : Kind → Bool
  | .commaExpr | .arguments | .item => true
  | _ => false

/-- Tags of nodes that say nothing about the strata of their children. -/
def isUnlayered (k : Kind) : Bool :=
  !(k.binaryPrecedence?.isSome || k.isAssignmentOperator || k == .question || k.holdsItems ||
    k == .propertyInit || k.isUnaryOperator || k.takesObject)

/-- A tag of a binary operator is of no other kind of layer. -/
theorem layers_of_precedence {k : Kind} {precedence : Precedence}
    (h : k.binaryPrecedence? = some precedence) :
    k.isAssignmentOperator = false ∧ k ≠ .question ∧ k.holdsItems = false ∧ k ≠ .propertyInit ∧
      k.isUnaryOperator = false ∧ k.takesObject = false := by
  have hsome : k.binaryPrecedence?.isSome = true := by rw [h]; rfl
  revert hsome
  cases k <;> decide

theorem layers_of_isAssignmentOperator {k : Kind} (h : k.isAssignmentOperator = true) :
    k.binaryPrecedence? = none ∧ k ≠ .question ∧ k.holdsItems = false ∧
      k.isUnaryOperator = false ∧ k.takesObject = false := by
  revert h
  cases k <;> decide

theorem layers_of_isUnaryOperator {k : Kind} (h : k.isUnaryOperator = true) :
    k.binaryPrecedence? = none ∧ k.isAssignmentOperator = false ∧ k ≠ .question ∧
      k.holdsItems = false ∧ k ≠ .propertyInit ∧ k.takesObject = false := by
  revert h
  cases k <;> decide

theorem layers_of_takesObject {k : Kind} (h : k.takesObject = true) :
    k.binaryPrecedence? = none ∧ k.isAssignmentOperator = false ∧ k ≠ .question ∧
      k.holdsItems = false ∧ k ≠ .propertyInit ∧ k.isUnaryOperator = false := by
  revert h
  cases k <;> decide

theorem layers_of_holdsItems {k : Kind} (h : k.holdsItems = true) :
    k.binaryPrecedence? = none ∧ k.isAssignmentOperator = false ∧ k ≠ .question ∧
      k ≠ .propertyInit ∧ k.isUnaryOperator = false ∧ k.takesObject = false := by
  revert h
  cases k <;> decide

theorem isUnaryOperator_of_leadingOperator? {k tag : Kind}
    (h : Production.leadingOperator? k = some tag) : tag.isUnaryOperator = true := by
  unfold Production.leadingOperator? at h
  split at h <;> cases h <;> rfl

theorem isUnaryOperator_of_trailingOperator? {k tag : Kind}
    (h : Production.trailingOperator? k = some tag) : tag.isUnaryOperator = true := by
  unfold Production.trailingOperator? at h
  split at h <;> cases h <;> rfl

theorem takesObject_of_accessTag? {k tag : Kind} (h : Rule.accessTag? k = some tag) :
    tag.takesObject = true := by
  unfold Rule.accessTag? at h
  split at h <;> cases h <;> rfl

end Kind

namespace Concrete

/-- The nodes of a tree, the tree itself among them. -/
inductive Contains : Concrete → Concrete → Prop where
  | self : Contains t t
  | inside : u ∈ t.children → Contains u v → Contains t v

/-- The children of a node lie in the strata that its tag allows. -/
structure Stratified (t : Concrete) : Prop where
  left : ∀ {precedence left right}, t.kind.binaryPrecedence? = some precedence →
    t.children = [left, right] → left.kind.isLoose = false ∧ left.kind ≠ .question ∧
      ∀ p, left.kind.binaryPrecedence? = some p → precedence.level ≤ p.level
  right : ∀ {precedence left right}, t.kind.binaryPrecedence? = some precedence →
    t.children = [left, right] → right.kind.isLoose = false ∧ right.kind ≠ .question ∧
      ∀ p, right.kind.binaryPrecedence? = some p → precedence.level < p.level
  target : t.kind.isAssignmentOperator = true → ∀ u ∈ t.children.head?, u.kind.isLoose = false
  condition : t.kind = .question →
    ∀ u ∈ t.children.head?, u.kind.isLoose = false ∧ u.kind ≠ .question
  item : t.kind.holdsItems = true → ∀ u ∈ t.children, u.kind ≠ .commaExpr
  /-- The value of a property, and what is assigned to a target or a new variable. -/
  value : t.kind = .propertyInit ∨ t.kind.isAssignmentOperator = true →
    ∀ u ∈ t.children[1]?, u.kind ≠ .commaExpr
  operand : t.kind.isUnaryOperator = true → ∀ u ∈ t.children, u.kind.isCompound = false
  object : t.kind.takesObject = true → ∀ u ∈ t.children.head?, u.kind.isCompound = false

/-- Every node of a tree is stratified. -/
def Layered (t : Concrete) : Prop := ∀ u, t.Contains u → u.Stratified

theorem layered_of_children {t : Concrete} (ht : t.Stratified)
    (h : ∀ u ∈ t.children, u.Layered) : t.Layered := by
  intro v hv
  cases hv with
  | self => exact ht
  | inside hu hv => exact h _ hu v hv

section
variable {t left right u v : Concrete} {precedence : Precedence} {us : List Concrete}

theorem stratified_of_no_children (h : t.children = []) : t.Stratified := by
  constructor <;> simp [h]

theorem stratified_of_isUnlayered (h : t.kind.isUnlayered = true) : t.Stratified := by
  simp only [Kind.isUnlayered, Bool.not_eq_true', Bool.or_eq_false_iff,
    Option.isSome_eq_false_iff, Option.isNone_iff_eq_none, beq_eq_false_iff_ne] at h
  constructor <;> simp [h]

theorem stratified_binary (hk : t.kind.binaryPrecedence? = some precedence)
    (hchildren : t.children = [left, right])
    (hleft : left.kind.isLoose = false ∧ left.kind ≠ .question)
    (hbinds : left.BindsAtLeast precedence)
    (hright : (Rule.binary precedence).admits right.kind = true) : t.Stratified := by
  have hlayers := Kind.layers_of_precedence hk
  constructor
  · intro p l r hp hlr
    obtain rfl := Option.some.inj (hk.symm.trans hp)
    obtain ⟨rfl, rfl⟩ : left = l ∧ right = r := by simpa using hchildren.symm.trans hlr
    exact ⟨hleft.1, hleft.2, hbinds⟩
  · intro p l r hp hlr
    obtain rfl := Option.some.inj (hk.symm.trans hp)
    obtain ⟨rfl, rfl⟩ : left = l ∧ right = r := by simpa using hchildren.symm.trans hlr
    exact Rule.admits_binary_iff.mp hright
  all_goals simp [hlayers]

/-- An assignment, or a variable with its first value. -/
theorem stratified_assignment (hk : t.kind.isAssignmentOperator = true)
    (hchildren : t.children = [u, v]) (htarget : u.kind.isLoose = false)
    (hvalue : v.kind ≠ .commaExpr) : t.Stratified := by
  have hlayers := Kind.layers_of_isAssignmentOperator hk
  constructor <;> simp [hlayers, hchildren, htarget, hvalue]

theorem stratified_conditional (hk : t.kind = .question) (hchildren : t.children = u :: us)
    (hcondition : u.kind.isLoose = false ∧ u.kind ≠ .question) : t.Stratified := by
  have hassigns : Kind.isAssignmentOperator .question = false := rfl
  constructor <;> simp [hk, hassigns, hchildren, hcondition, Kind.binaryPrecedence?,
    Kind.holdsItems, Kind.isUnaryOperator, Kind.takesObject]

theorem stratified_items (hk : t.kind.holdsItems = true)
    (h : ∀ u ∈ t.children, u.kind ≠ .commaExpr) : t.Stratified := by
  have hlayers := Kind.layers_of_holdsItems hk
  constructor <;> simp [hlayers]
  exact fun _ => h

theorem stratified_property (hk : t.kind = .propertyInit) (hchildren : t.children = [u, v])
    (hvalue : v.kind ≠ .commaExpr) : t.Stratified := by
  have hassigns : Kind.isAssignmentOperator .propertyInit = false := rfl
  constructor <;> simp [hk, hassigns, hchildren, hvalue, Kind.binaryPrecedence?,
    Kind.holdsItems, Kind.isUnaryOperator, Kind.takesObject]

theorem stratified_unary (hk : t.kind.isUnaryOperator = true) (hchildren : t.children = [u])
    (hoperand : u.kind.isCompound = false) : t.Stratified := by
  have hlayers := Kind.layers_of_isUnaryOperator hk
  constructor <;> simp [hlayers, hchildren, hoperand]

theorem stratified_object (hk : t.kind.takesObject = true) (hchildren : t.children = u :: us)
    (hobject : u.kind.isCompound = false) : t.Stratified := by
  have hlayers := Kind.layers_of_takesObject hk
  constructor <;> simp [hlayers, hchildren, hobject]

end

end Concrete

variable {input : Input} {r : Rule} {p q e start : Nat} {k : Kind} {ts : List Concrete}

theorem layered_leafAt : (input.leafAt p k).Layered :=
  Concrete.layered_of_children (Concrete.stratified_of_no_children rfl) nofun

theorem layered_absent : (Concrete.absent k start).Layered :=
  Concrete.layered_of_children (Concrete.stratified_of_no_children rfl) nofun

/-- A node whose tag says nothing about its children. -/
theorem layered_nodeAt (hk : k.isUnlayered = true) (h : ∀ t ∈ ts, t.Layered) :
    (input.nodeAt q k start ts).Layered :=
  Concrete.layered_of_children (Concrete.stratified_of_isUnlayered hk) h

/-- Lists in parentheses are of expressions without commas or of names. -/
def Rule.listsItems : Rule → Bool
  | .listed r => r.listsItems && !r.admits .commaExpr
  | .separated r | .optional r => r.listsItems
  | _ => true

theorem Derives.ne_commaExpr (h : Derives input r p q e ts) (hr : r.admits .commaExpr = false) :
    ∀ t ∈ ts, t.kind ≠ .commaExpr := by
  intro t ht hcomma
  have hadmits := h.admits t ht
  rw [hcomma, hr] at hadmits
  cases hadmits

theorem Derives.isCompound_eq_false {t : Concrete} (h : Derives input r p q e [t])
    (hr : ∀ k, r.admits k = !k.isCompound) : t.kind.isCompound = false := by
  simpa [hr] using h.admits t List.mem_cons_self

/-- An operand that may stand before an operator or a question mark. -/
theorem Derives.isLoose_eq_false {t : Concrete} {floor : Precedence}
    (h : Derives input (.binary floor) p q e [t]) : t.kind.isLoose = false ∧ t.kind ≠ .question :=
  have hadmits := Rule.admits_binary_iff.mp (h.admits t List.mem_cons_self)
  ⟨hadmits.1, hadmits.2.1⟩

/-- Every node that a rule builds is stratified. -/
theorem Derives.layered (h : Derives input r p q e ts) (hr : r.listsItems = true) :
    ∀ t ∈ ts, t.Layered := by
  have one {t : Concrete} (h : t.Layered) : ∀ u ∈ [t], u.Layered := List.forall_mem_singleton.mpr h
  have only {t : Concrete} (h : ∀ u ∈ [t], u.Layered) : t.Layered := h t List.mem_cons_self
  have cons {t : Concrete} {ts : List Concrete} (h : ∀ u ∈ [t], u.Layered)
      (hs : ∀ u ∈ ts, u.Layered) : ∀ u ∈ t :: ts, u.Layered :=
    List.forall_mem_cons.mpr ⟨only h, hs⟩
  induction h with
  | one _ ih | something _ ih => exact ih hr
  | more _ _ _ ih₁ ih₂ => exact cons (ih₁ hr) (ih₂ hr)
  | noItems =>
    exact one (Concrete.layered_of_children (Concrete.stratified_of_no_children rfl)
      (List.forall_mem_nil _))
  | someItems _ hd _ ih =>
    simp only [Rule.listsItems, Bool.and_eq_true, Bool.not_eq_true'] at hr
    exact one (Concrete.layered_of_children
      (Concrete.stratified_items rfl (hd.ne_commaExpr hr.2)) (ih hr.1))
  | nothing | lacking | noMoreItems | noMoreMembers | xmlBroken | noMoreStatements | noElse
  | noMoreClauses | noMoreCatches => exact List.forall_mem_nil _
  | leaf | present => exact one layered_leafAt
  | missing | noClause => exact one layered_absent
  -- Operands.
  | paren _ _ _ ih | array _ _ _ ih | object _ _ _ ih | xml _ _ ih | new _ _ ih =>
    exact one (layered_nodeAt rfl (ih rfl))
  | hole _ _ ih => exact List.forall_mem_cons.mpr ⟨layered_absent, ih rfl⟩
  | lastItem hd ih =>
    exact one (Concrete.layered_of_children
      (Concrete.stratified_items rfl (hd.ne_commaExpr rfl)) (ih rfl))
  | item hd _ _ ih₁ ih₂ =>
    exact List.forall_mem_cons.mpr ⟨Concrete.layered_of_children
      (Concrete.stratified_items rfl (hd.ne_commaExpr rfl)) (ih₁ rfl), ih₂ rfl⟩
  | lastMember _ ih => exact ih rfl
  | nextMember _ _ _ ih₁ ih₂ => exact cons (ih₁ rfl) (ih₂ rfl)
  | propertyInit _ _ hd ih₁ ih₂ =>
    exact one (Concrete.layered_of_children
      (Concrete.stratified_property rfl rfl (hd.ne_commaExpr rfl _ List.mem_cons_self))
      (cons (ih₁ rfl) (ih₂ rfl)))
  | getter _ _ _ _ _ ih₁ ih₂ => exact one (layered_nodeAt rfl (cons (ih₁ rfl) (ih₂ rfl)))
  | setter _ _ _ _ _ _ ih₁ ih₂ ih₃ =>
    exact one (layered_nodeAt rfl (cons (ih₁ rfl) (cons (ih₂ rfl) (ih₃ rfl))))
  | xmlText _ _ ih => exact List.forall_mem_cons.mpr ⟨layered_leafAt, ih rfl⟩
  | xmlLast => exact one layered_leafAt
  | xmlEmbedded _ _ _ _ ih₁ ih₂ => exact cons (ih₁ rfl) (ih₂ rfl)
  | functionOperand _ ih | invalid _ _ ih | primaryOf _ ih | memberOf _ ih | trailingOf _ ih
  | unaryOf _ ih | binaryOf _ ih | conditionalOf _ ih | assignmentOf _ ih | expressionOf _ ih =>
    exact ih rfl
  -- Member accesses, calls and operators.
  | newCall _ hd _ _ ih₁ ih₂ =>
    refine one (layered_nodeAt rfl (one ?_))
    exact Concrete.layered_of_children
      (Concrete.stratified_object rfl rfl (hd.isCompound_eq_false fun _ => rfl))
      (cons (ih₁ rfl) (ih₂ rfl))
  | access hd _ htag _ ih₁ ih₂ =>
    exact one (Concrete.layered_of_children (Concrete.stratified_object
      (Kind.takesObject_of_accessTag? htag) rfl (hd.isCompound_eq_false fun _ => rfl))
      (cons (ih₁ rfl) (ih₂ rfl)))
  | index hd _ _ _ ih₁ ih₂ | call hd _ _ ih₁ ih₂ =>
    exact one (Concrete.layered_of_children
      (Concrete.stratified_object rfl rfl (hd.isCompound_eq_false fun _ => rfl))
      (cons (ih₁ rfl) (ih₂ rfl)))
  | trailed hd _ htag _ ih =>
    exact one (Concrete.layered_of_children (Concrete.stratified_unary
      (Kind.isUnaryOperator_of_trailingOperator? htag) rfl
      (hd.isCompound_eq_false fun _ => rfl)) (ih rfl))
  | leading _ htag hd ih =>
    exact one (Concrete.layered_of_children (Concrete.stratified_unary
      (Kind.isUnaryOperator_of_leadingOperator? htag) rfl
      (hd.isCompound_eq_false fun _ => rfl)) (ih rfl))
  | operate hd _ hprecedence _ hbinds hu ih₁ ih₂ =>
    exact one (Concrete.layered_of_children (Concrete.stratified_binary hprecedence rfl
      hd.isLoose_eq_false hbinds (hu.admits _ List.mem_cons_self)) (cons (ih₁ rfl) (ih₂ rfl)))
  | choose hd _ _ _ _ ih₁ ih₂ ih₃ =>
    exact one (Concrete.layered_of_children
      (Concrete.stratified_conditional rfl rfl hd.isLoose_eq_false)
      (cons (ih₁ rfl) (cons (ih₂ rfl) (ih₃ rfl))))
  | assign hd _ hassigns hu ih₁ ih₂ =>
    have htarget := hd.admits _ List.mem_cons_self
    exact one (Concrete.layered_of_children (Concrete.stratified_assignment hassigns rfl
      (by simpa [Rule.admits] using htarget) (hu.ne_commaExpr rfl _ List.mem_cons_self))
      (cons (ih₁ rfl) (ih₂ rfl)))
  | yield _ _ _ ih => exact one (layered_nodeAt rfl (ih rfl))
  | commas hd _ hmore ih₁ ih₂ =>
    refine one (Concrete.layered_of_children (Concrete.stratified_items rfl ?_)
      (cons (ih₁ rfl) (ih₂ rfl)))
    exact List.forall_mem_cons.mpr
      ⟨hd.ne_commaExpr rfl _ List.mem_cons_self, hmore.ne_commaExpr rfl⟩
  -- Statement lists, blocks, functions and declarations.
  | nextStatement _ _ _ ih₁ ih₂ | nextClause _ _ ih₁ ih₂ | nextCatch _ _ ih₁ ih₂ =>
    exact cons (ih₁ rfl) (ih₂ rfl)
  | skipped _ _ _ _ _ ih | strayTokens _ _ _ ih => exact ih rfl
  | block _ _ _ ih | declaration _ _ ih => exact one (layered_nodeAt rfl (ih rfl))
  | named _ _ _ _ _ ih₁ ih₂ =>
    exact one (layered_nodeAt rfl (cons (one layered_leafAt) (cons (ih₁ rfl) (ih₂ rfl))))
  | unnamed _ _ _ ih₁ ih₂ => exact one (layered_nodeAt rfl (cons (ih₁ rfl) (ih₂ rfl)))
  | declared _ ih => exact ih rfl
  | initialized hd _ hu ih₁ ih₂ =>
    have hname := Kind.isCompound_eq_false_iff.mp (hd.isCompound_eq_false fun _ => rfl)
    exact one (Concrete.layered_of_children (Concrete.stratified_assignment rfl rfl hname.1
      (hu.ne_commaExpr rfl _ List.mem_cons_self)) (cons (ih₁ rfl) (ih₂ rfl)))
  -- Parts of statements.
  | condition _ _ _ ih | orElse _ _ ih | initialOf _ ih | initialVariables _ ih => exact ih rfl
  | clauseOf _ ih =>
    exact one (Concrete.layered_of_children (Concrete.stratified_of_isUnlayered rfl) (ih rfl))
  | steps _ _ _ _ _ ih₁ ih₂ ih₃ =>
    exact one (layered_nodeAt rfl (cons (ih₁ rfl) (cons (ih₂ rfl) (ih₃ rfl))))
  | iterate _ _ _ ih₁ ih₂ | caseClause _ _ _ _ ih₁ ih₂ =>
    exact one (layered_nodeAt rfl (cons (ih₁ rfl) (ih₂ rfl)))
  | defaultClause _ _ _ ih | filter _ _ ih | finalClause _ _ ih =>
    exact one (layered_nodeAt rfl (ih rfl))
  | catchClause _ _ _ _ _ _ ih₁ ih₂ ih₃ =>
    exact one (layered_nodeAt rfl (cons (ih₁ rfl)
      (List.forall_mem_append.mpr ⟨ih₂ rfl, ih₃ rfl⟩)))
  -- Statements.
  | blockStatement _ ih | functionStatement _ ih | variableStatement _ _ ih
  | expressionStatement _ _ _ _ ih | nullStatement _ _ ih => exact ih rfl
  | emptyStatement =>
    exact one (Concrete.layered_of_children (Concrete.stratified_of_no_children rfl)
      (List.forall_mem_nil _))
  | constStatement _ _ _ ih | throwStatement _ _ _ ih | returnStatement _ _ _ _ ih =>
    exact one (layered_nodeAt rfl (ih rfl))
  | jumpStatement _ hk _ _ _ ih =>
    obtain rfl | rfl := hk <;> exact one (layered_nodeAt rfl (ih rfl))
  | ifStatement _ _ _ _ ih₁ ih₂ ih₃ =>
    exact one (layered_nodeAt rfl (cons (ih₁ rfl) (cons (ih₂ rfl) (ih₃ rfl))))
  | doStatement _ _ _ _ _ ih₁ ih₂ | whileStatement _ _ _ ih₁ ih₂ | withStatement _ _ _ ih₁ ih₂
  | switchStatement _ _ _ _ _ ih₁ ih₂ =>
    exact one (layered_nodeAt rfl (cons (ih₁ rfl) (ih₂ rfl)))
  | forStatement _ _ _ _ _ _ ih₁ ih₂ =>
    refine one (layered_nodeAt ?_ (cons (ih₁ rfl) (ih₂ rfl)))
    split <;> rfl
  | tryStatement _ _ _ _ ih₁ ih₂ ih₃ =>
    exact one (layered_nodeAt rfl (cons (ih₁ rfl)
      (List.forall_mem_append.mpr ⟨ih₂ rfl, ih₃ rfl⟩)))
  | namespaceStatement _ _ _ _ _ _ ih₁ ih₂ ih₃ =>
    refine one (layered_nodeAt rfl (cons (one layered_leafAt) (cons (one layered_leafAt) ?_)))
    exact List.forall_mem_append.mpr
      ⟨List.forall_mem_append.mpr ⟨ih₁ rfl, ih₂ rfl⟩, ih₃ rfl⟩
  | labelledStatement _ _ _ _ ih =>
    exact one (layered_nodeAt rfl (cons (one layered_leafAt) (ih rfl)))

/-- Whatever tokens the grammar reads as a script, every node of the tree is stratified. -/
theorem program_stratified (tokens : Array Token) (lines : LineMap) (limit : Nat) (tree : Concrete)
    (c : Cursor) (h : Cursor.initial.program (.ofTokens tokens lines limit) = (.ok tree, c)) :
    ∀ t, tree.Contains t → t.Stratified := by
  obtain ⟨ts, rfl, hts⟩ := program_derives h
  exact layered_nodeAt rfl (hts.layered rfl)

/-- A product before a sum is its left operand. -/
theorem program_stratified_sum :
    let tokens : Array Token := #[⟨.identifier, "a", 1, 0, 0, false, false⟩,
      ⟨.asterisk, "*", 1, 1, 1, false, false⟩, ⟨.identifier, "b", 1, 2, 2, false, false⟩,
      ⟨.plus, "+", 1, 3, 3, false, false⟩, ⟨.identifier, "c", 1, 4, 4, false, false⟩]
    let product : Concrete :=
      .inner .asterisk 0 (some 2) [.leaf .identifier 0 "a", .leaf .identifier 2 "b"]
    let sum : Concrete := .inner .plus 0 (some 4) [product, .leaf .identifier 4 "c"]
    Cursor.initial.program (.ofTokens tokens (.ofText "a*b+c") 2) =
        (.ok (.inner .script 0 (some 4) [sum]), ⟨5, 0, #[]⟩) ∧
      sum.Stratified ∧ product.Stratified := by
  intro tokens product sum
  have hread : Cursor.initial.program (.ofTokens tokens (.ofText "a*b+c") 2) =
      (.ok (.inner .script 0 (some 4) [sum]), ⟨5, 0, #[]⟩) := by
    dsimp only [tokens, sum, product]
    rfl
  have hall := program_stratified _ _ _ _ _ hread
  exact ⟨hread, hall sum (.inside List.mem_cons_self .self),
    hall product (.inside List.mem_cons_self (.inside List.mem_cons_self .self))⟩

end ScriptTree
