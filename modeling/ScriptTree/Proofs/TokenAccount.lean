import Mathlib.Algebra.BigOperators.Group.List.Basic
import Mathlib.Algebra.GroupWithZero.Nat
import ScriptTree.Proofs.ProgramWritten

/-!
Every token is kept once. A node records the token that it stands for, and of other tokens their
positions. All nodes of a script together record each significant token of the source, and no token
twice; those that fall into a gap are not recorded at all.
-/
namespace ScriptTree

namespace Part

/-- The position that a part keeps. -/
def position? : Part → Option Nat
  | sign pos => some pos
  | _ => none

/-- Whether the part is a gap in which the token `t` at `pos` stands. -/
def isGapOf (pos : Nat) (t : Token) : Part → Bool
  | gap kind start stop => t.kind = kind ∧ start ≤ pos ∧ pos < stop
  | _ => false

end Part

namespace Node

/-- The positions of tokens that a node has kept. -/
def positions (n : Node) : List Nat := n.parts.filterMap Part.position?

/-- How often a node records the token `t` at `pos`: as the token it stands for or by its
position. -/
def records (pos : Nat) (t : Token) (n : Node) : Nat :=
  (if n.isWord ∧ n.range = .ofLength pos t.length then 1 else 0) + n.positions.count pos

/-- How many gaps of a node the token `t` at `pos` stands in. -/
def gaps (pos : Nat) (t : Token) (n : Node) : Nat := n.parts.countP (Part.isGapOf pos t)

/-- Whether a node leaves out the token `t` at `pos`, which stands in a gap: a comma after the last
item of an array or an object, or a brace around an expression in XML. -/
def leavesOut (pos : Nat) (t : Token) (n : Node) : Bool := n.parts.any (Part.isGapOf pos t)

/-- How often the nodes inside `n`, itself among them, record a token or leave it out. -/
def account (pos : Nat) (t : Token) (n : Node) : Nat :=
  (n.preorder.map fun d => d.records pos t + d.gaps pos t).sum

theorem account_eq (pos : Nat) (t : Token) (n : Node) : n.account pos t =
    n.records pos t + n.gaps pos t + (n.children.map (account pos t)).sum := by
  rw [account, preorder_eq, List.map_cons, List.sum_cons, List.map_flatMap]
  congr 1
  induction n.children with
  | nil => rfl
  | cons c rest ih =>
    rw [List.flatMap_cons, List.sum_append_nat, ih]
    rfl

end Node

namespace Part

/-- How often a part, or the nodes inside it, record a token or leave it out. -/
def account (pos : Nat) (t : Token) : Part → Nat
  | node n => n.account pos t
  | sign s => if s = pos then 1 else 0
  | gap kind start stop => if t.kind = kind ∧ start ≤ pos ∧ pos < stop then 1 else 0

end Part

section
variable (pos : Nat) (t : Token)

theorem sum_account_parts (parts : List Part) : (parts.map (Part.account pos t)).sum =
    (parts.filterMap Part.position?).count pos + parts.countP (Part.isGapOf pos t) +
      ((Part.nodes parts).map (Node.account pos t)).sum := by
  induction parts with
  | nil => rfl
  | cons part rest ih =>
    rw [List.map_cons, List.sum_cons, ih]
    cases part with
    | node n =>
      rw [List.filterMap_cons_none rfl, List.countP_cons_of_neg Bool.false_ne_true, Part.nodes,
        List.map_cons, List.sum_cons, Part.account]
      omega
    | sign s =>
      have hposition : Part.position? (.sign s) = some s := rfl
      rw [List.filterMap_cons_some hposition, List.count_cons,
        List.countP_cons_of_neg Bool.false_ne_true, Part.nodes_sign, Part.account]
      simp only [beq_iff_eq]
      omega
    | gap k a b =>
      rw [List.filterMap_cons_none rfl, List.countP_cons, Part.nodes_gap, Part.account]
      simp only [Part.isGapOf, decide_eq_true_eq]
      omega

/-- What a node that is no script accounts for: the token it stands for, and its parts. -/
theorem account_eq_parts {n : Node} (h : n.isScript = false) : n.account pos t =
    (if n.isWord ∧ n.range = .ofLength pos t.length then 1 else 0) +
      (n.parts.map (Part.account pos t)).sum := by
  rw [Node.account_eq, sum_account_parts, Node.nodes_parts h, Node.records, Node.gaps,
    Node.positions]
  omega

end

section
variable {input : Input} {tokens : Array Token} {leeway : Leeway} {p q j : Nat} {t : Token}
  {n : Node} {parts : List Part}

theorem account_emptyAt (pos start : Nat) (t : Token) : (Node.emptyAt start).account pos t = 0 := by
  rw [account_eq_parts pos t rfl]
  rfl

/-- A node stands for the token of rank `p` only. -/
theorem account_word (cuts : input.Cuts tokens) (hp : p < input.significant.size)
    (hj : tokens[input.indexAt j]? = some t) (hsees : input.Sees j t.kind)
    (hword : n.isWord = true) (hrange : n.range = input.rangeAt tokens p) :
    n.account (input.startAt tokens j) t = if p = j then 1 else 0 := by
  obtain ⟨u, hu, _, _, htext⟩ := cuts.token_of_sees hsees
  obtain rfl : u = t := Option.some.inj (hu.symm.trans hj)
  rw [account_eq_parts _ _ (Node.isScript_of_isWord hword), Node.parts_of_isWord hword]
  by_cases hpj : p = j
  · subst hpj
    have hsame : n.range = .ofLength (input.startAt tokens p) u.length := by
      rw [hrange, Input.rangeAt, Token.length, htext]
    rw [if_pos rfl, if_pos ⟨hword, hsame⟩]
    rfl
  · rw [if_neg hpj, if_neg ?_]
    · rfl
    · intro h
      have hstart := congrArg Range.start (hrange.symm.trans h.2)
      exact hpj (cuts.startAt_inj hp hsees.lt_size hstart)

/-- Parts that are written with some tokens account for each of them once, and for no others. -/
theorem SpellsWith.sum_account (cuts : input.Cuts tokens)
    (h : SpellsWith input tokens leeway p q parts) (hj : tokens[input.indexAt j]? = some t)
    (hsees : input.Sees j t.kind) :
    (parts.map (Part.account (input.startAt tokens j) t)).sum =
      if p ≤ j ∧ j < q then 1 else 0 := by
  induction h with
  | nil =>
    rw [if_neg (by omega)]
    rfl
  | @sign p _ _ q _ hp hrest ih =>
    have hstart : input.startAt tokens p = input.startAt tokens j ↔ p = j :=
      ⟨cuts.startAt_inj hp.lt_size hsees.lt_size, fun h => h ▸ rfl⟩
    rw [List.map_cons, List.sum_cons, ih, Part.account]
    simp only [hstart]
    have := hrest.le
    split_ifs <;> omega
  | word hp hword _ hrange hrest ih =>
    rw [List.map_cons, List.sum_cons, ih, Part.account,
      account_word cuts hp.lt_size hj hsees hword hrange]
    have := hrest.le
    split_ifs <;> omega
  | inner hword hscript _ _ hspans hparts hrest ihparts ih =>
    rw [List.map_cons, List.sum_cons, ih, Part.account, account_eq_parts _ _ hscript, ihparts,
      if_neg (by simp [hword])]
    have := hspans.lt
    have := hrest.le
    split_ifs <;> omega
  | hole _ _ ih =>
    rw [List.map_cons, List.sum_cons, ih, Part.account, account_emptyAt, Nat.zero_add]
  | @bare p word _ _ hp hword hrest ih =>
    have hrange : word.range = input.rangeAt tokens p := by rw [hword]
    have hword := account_word (n := .keyword word) cuts hp.lt_size hj hsees rfl hrange
    rw [List.map_cons, List.sum_cons, List.map_cons, List.sum_cons, ih, Part.account, Part.account,
      account_emptyAt, hword]
    have := hrest.le
    split_ifs <;> omega
  | @filled p k start stop _ q _ hp hstart hstop honly hrest ih =>
    have hgap : (t.kind = k ∧ start ≤ input.startAt tokens j ∧ input.startAt tokens j < stop) ↔
        p = j := by
      constructor
      · rintro ⟨rfl, hge, hlt⟩
        exact (honly j hsees hge hlt).symm
      · rintro rfl
        exact ⟨hsees.unique hp, hstart, hstop⟩
    rw [List.map_cons, List.sum_cons, ih, Part.account]
    simp only [hgap]
    have := hrest.le
    split_ifs <;> omega
  | unfilled honly _ ih =>
    rw [List.map_cons, List.sum_cons, ih, Part.account, if_neg, Nat.zero_add]
    rintro ⟨rfl, hge, hlt⟩
    exact honly j hsees hge hlt

end

/-- The comments of a script account for nothing. -/
theorem account_script (pos : Nat) (t : Token) (script : Script) : script.toNode.account pos t =
    ((script.statements.map Part.node).map (Part.account pos t)).sum := by
  have hperm : script.toNode.children.Perm
      (script.comments.map Node.comment ++ script.statements) :=
    List.merge_perm_append Node.startsNoLater
  have hcomments : ((script.comments.map Node.comment).map (Node.account pos t)).sum = 0 := by
    induction script.comments with
    | nil => rfl
    | cons c rest ih =>
      rw [List.map_cons, List.map_cons, List.sum_cons, ih, account_eq_parts pos t rfl]
      rfl
  rw [Node.account_eq, (hperm.map _).sum_nat, List.map_append, List.sum_append_nat, hcomments,
    sum_account_parts, Part.nodes_map_node, Node.records, Node.gaps, Node.positions,
    if_neg fun h => Bool.false_ne_true h.1]
  simp only [Script.toNode, Node.parts, Nat.zero_add]

/-- Every significant token is accounted for once in a script that is written with the tokens of
its source. -/
theorem WrittenScript.account_eq_one [Alphabet] {source : String} {xmlLiterals : Bool}
    {script : Script}
    (h : WrittenScript source xmlLiterals script) {i : Nat} {t : Token}
    (ht : (tokenize source xmlLiterals).tokens[i]? = some t) (hhidden : t.isHidden = false) :
    script.toNode.account
      (TokenTable.offset (.ofTokens (tokenize source xmlLiterals).tokens) i) t = 1 := by
  have cuts := Input.ofSource_cuts source xmlLiterals
  obtain ⟨j, hj, rfl, hsees⟩ := cuts.sees_of_token ht hhidden
  have hone := h.spells.sum_account cuts ht hsees
  rw [if_pos ⟨Nat.zero_le j, hj⟩] at hone
  rw [account_script]
  exact hone

/-- Where nothing is reported, the nodes of the script record every significant token of the source
exactly once. Only a comma after the last item of an array or an object and a brace around an
expression in XML are not recorded. -/
theorem parse_tokens_recorded [Alphabet] (source : String) (options : ParseOptions)
    (h : (parse source options).diagnostics = #[]) (i : Nat) (t : Token)
    (ht : (tokenize source options.xmlLiterals).tokens[i]? = some t)
    (hhidden : t.isHidden = false) :
    let nodes := (parse source options).script.toNode.preorder
    let pos := TokenTable.offset (.ofTokens (tokenize source options.xmlLiterals).tokens) i
    (nodes.map (Node.records pos t)).sum =
      if nodes.any (Node.leavesOut pos t) then 0 else 1 := by
  intro nodes pos
  have hone : (nodes.map fun n => n.records pos t + n.gaps pos t).sum = 1 :=
    (parse_writtenScript h).account_eq_one ht hhidden
  have hgaps : 0 < (nodes.map (Node.gaps pos t)).sum ↔ nodes.any (Node.leavesOut pos t) = true := by
    rw [List.sum_pos_iff_exists_pos_nat, List.any_eq_true]
    simp only [List.mem_map, exists_exists_and_eq_and, Node.gaps, List.countP_pos_iff,
      Node.leavesOut, List.any_eq_true]
  rw [List.sum_map_add] at hone
  split
  · rename_i hany
    have := hgaps.mpr hany
    omega
  · rename_i hany
    have := mt hgaps.mp hany
    omega

/-- The comma in this array comes after its last item. -/
theorem parse_tokens_recorded_comma :
    let tokens := (tokenize "[1,]" true).tokens
    let t : Token := ⟨.comma, ",", 1, 2, 2, false, false⟩
    let nodes := (parse "[1,]" .default).script.toNode.preorder
    let pos := TokenTable.offset (.ofTokens tokens) 2
    (parse "[1,]" .default).diagnostics = #[] ∧ tokens[2]? = some t ∧ t.isHidden = false ∧
      (nodes.map (Node.records pos t)).sum =
        if nodes.any (Node.leavesOut pos t) then 0 else 1 := by
  intro tokens t nodes pos
  have hparse : (parse "[1,]" .default).diagnostics = #[] := rfl
  have htoken : tokens[2]? = some t := rfl
  exact ⟨hparse, htoken, rfl, parse_tokens_recorded "[1,]" .default hparse 2 t htoken rfl⟩

end ScriptTree
