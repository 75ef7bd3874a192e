import ScriptTree.Proofs.Derivation

/-!
Tags at the roots of expressions. A rule for expressions admits some tags only: the tighter the
rule, the fewer of them. What a rule builds has a tag that the rule admits.
-/
namespace ScriptTree

namespace Kind

/-- Tags of lists with commas, of `yield` and of assignments. -/
def isLoose (k : Kind) : Bool := k == .commaExpr || k == .yieldKeyword || k.isAssignmentOperator

/-- Tags of expressions that are operands of a unary operator only in parentheses. -/
def isCompound (k : Kind) : Bool := k.isLoose || k == .question || k.binaryPrecedence?.isSome

theorem isLoose_of_precedence {k : Kind} {precedence : Precedence}
    (h : k.binaryPrecedence? = some precedence) : k.isLoose = false := by
  have hsome : k.binaryPrecedence?.isSome = true := by rw [h]; rfl
  revert hsome
  cases k <;> decide

theorem isCompound_eq_false_iff {k : Kind} : k.isCompound = false ↔
    k.isLoose = false ∧ k ≠ .question ∧ k.binaryPrecedence? = none := by
  simp [isCompound, Bool.or_eq_false_iff, and_assoc]

theorem isCompound_of_isAtom {k : Kind} (h : Rule.isAtom k = true) : k.isCompound = false := by
  revert h
  cases k <;> decide

end Kind

/-- Whether a tree that a rule builds may have a given tag. -/
def Rule.admits : Rule → Kind → Bool
  | .assignment, k => k != .commaExpr
  | .conditional, k => !k.isLoose
  | .binary floor, k =>
    !k.isLoose && k != .question && k.binaryPrecedence?.all (floor.level < ·.level)
  | .unary, k | .trailing, k | .member, k | .primary, k | .operand, k | .function _, k
  | .identifier, k => !k.isCompound
  | .separated r, k | .optional r, k => r.admits k
  | _, _ => true

variable {input : Input} {r : Rule} {p q e : Nat} {ts : List Concrete} {k tag : Kind}

theorem Rule.admits_binary_iff {floor : Precedence} : (Rule.binary floor).admits k = true ↔
    k.isLoose = false ∧ k ≠ .question ∧
      ∀ precedence, k.binaryPrecedence? = some precedence → floor.level < precedence.level := by
  simp [Rule.admits, Option.all_eq_true, and_assoc]

theorem Rule.admits_of_leafTag? (h : r.leafTag? k = some tag) : r.admits tag = true := by
  cases r with
  | identifier =>
    simp only [leafTag?] at h
    split at h <;> cases h
    rfl
  | operand =>
    simp only [leafTag?] at h
    split at h
    · rename_i hatom
      cases h
      simp [admits, Kind.isCompound_of_isAtom hatom]
    · split at h <;> cases h
      rfl
  | selector | propertyName => rfl
  | _ => cases h

theorem Rule.admits_of_missingTag? (h : r.missingTag? = some tag) : r.admits tag = true := by
  cases r <;> cases h <;> rfl

/-- What a rule builds has a tag that the rule admits. -/
theorem Derives.admits (h : Derives input r p q e ts) : ∀ t ∈ ts, r.admits t.kind = true := by
  have only {r : Rule} {t : Concrete} (h : ∀ u ∈ [t], r.admits u.kind = true) :
      r.admits t.kind = true := h t List.mem_cons_self
  induction h with
  | one _ ih | something _ ih | functionOperand _ ih | invalid _ _ ih | primaryOf _ ih
  | memberOf _ ih | trailingOf _ ih | unaryOf _ ih => exact ih
  | more _ _ _ ih₁ ih₂ => exact List.forall_mem_cons.mpr ⟨only ih₁, ih₂⟩
  | nothing => nofun
  | leaf _ htag => exact List.forall_mem_singleton.mpr (Rule.admits_of_leafTag? htag)
  | missing htag => exact List.forall_mem_singleton.mpr (Rule.admits_of_missingTag? htag)
  | access _ _ htag =>
    refine List.forall_mem_singleton.mpr ?_
    unfold Rule.accessTag? at htag
    split at htag <;> cases htag <;> rfl
  | trailed _ _ htag =>
    refine List.forall_mem_singleton.mpr ?_
    unfold Production.trailingOperator? at htag
    split at htag <;> cases htag <;> rfl
  | leading _ htag =>
    refine List.forall_mem_singleton.mpr ?_
    unfold Production.leadingOperator? at htag
    split at htag <;> cases htag <;> rfl
  | binaryOf _ ih =>
    have htight := Kind.isCompound_eq_false_iff.mp (by simpa [Rule.admits] using only ih)
    refine List.forall_mem_singleton.mpr (Rule.admits_binary_iff.mpr ⟨htight.1, htight.2.1, ?_⟩)
    simp [htight.2.2]
  | operate _ _ hprecedence hlevel =>
    refine List.forall_mem_singleton.mpr (Rule.admits_binary_iff.mpr ?_)
    refine ⟨Kind.isLoose_of_precedence hprecedence, ?_, ?_⟩
    · rintro rfl
      cases hprecedence
    · intro precedence h
      obtain rfl := Option.some.inj (hprecedence.symm.trans h)
      exact hlevel
  | conditionalOf _ ih =>
    have hbinary := Rule.admits_binary_iff.mp (only ih)
    exact List.forall_mem_singleton.mpr (by simp [Rule.admits, hbinary.1])
  | assignmentOf _ ih =>
    have hloose := only ih
    simp only [Rule.admits, Kind.isLoose, Bool.not_eq_true', Bool.or_eq_false_iff] at hloose
    exact List.forall_mem_singleton.mpr (by simpa [Rule.admits] using hloose.1.1)
  | assign _ _ hassigns =>
    refine List.forall_mem_singleton.mpr (bne_iff_ne.mpr ?_)
    intro (hcomma : _ = Kind.commaExpr)
    subst hcomma
    cases hassigns
  | paren | array | object | xml | new | newCall | index | call | choose | yield | named
  | unnamed => exact List.forall_mem_singleton.mpr rfl
  | _ => exact fun _ _ => rfl

end ScriptTree
