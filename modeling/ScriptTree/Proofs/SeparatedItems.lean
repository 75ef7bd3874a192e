import ScriptTree.Proofs.DepthGuard
import ScriptTree.Proofs.RecoveredRanges

/-!
Commas between items. A comma is looked for between the trees of two neighbours. In text with faults
the nodes made of these trees may go beyond them, but over hidden tokens only, so that neither of
the nodes reaches the comma.
-/
namespace ScriptTree
open Lowered

/-- The items that stand in a row inside a node, and the commas between them. -/
def Node.row? : Node → Option (List Node × List Nat)
  | .call _ _ _ items commas _ | .function _ _ _ _ items commas _ _ | .array _ _ items commas _
  | .object _ _ items commas _ _ | .comma _ items commas | .variableDeclaration _ _ items commas
  | .constStatement _ _ items commas _ => some (items, commas)
  | _ => none

/-- Between any two neighbours stands one comma, which belongs to neither of them. -/
structure Separated (items : List Node) (commas : List Nat) : Prop where
  length_eq : commas.length = items.length - 1
  increasing : commas.Pairwise (· < ·)
  between : ∀ i comma, commas[i]? = some comma → ∃ left right, items[i]? = some left ∧
    items[i + 1]? = some right ∧ left.range.stop ≤ comma ∧ comma + 1 ≤ right.range.start

theorem separated_nil : Separated [] [] := ⟨rfl, .nil, nofun⟩

theorem separated_singleton (n : Node) : Separated [n] [] := ⟨rfl, .nil, nofun⟩

theorem Separated.cons {left right : Node} {items : List Node} {comma : Nat} {commas : List Nat}
    (h : Separated (right :: items) commas) (hleft : left.range.stop ≤ comma)
    (hright : comma + 1 ≤ right.range.start) (hrange : right.range.start ≤ right.range.stop) :
    Separated (left :: right :: items) (comma :: commas) where
  length_eq := by
    rw [List.length_cons, h.length_eq]
    rfl
  increasing := by
    refine List.pairwise_cons.mpr ⟨?_, h.increasing⟩
    -- The next comma is after the right neighbour, and all others are after it.
    cases commas with
    | nil => exact nofun
    | cons next rest =>
      obtain ⟨_, _, hfirst, _, hstop, _⟩ := h.between 0 next rfl
      cases hfirst
      have hlt : comma < next := by omega
      refine List.forall_mem_cons.mpr ⟨hlt, fun other hother => ?_⟩
      exact Nat.lt_trans hlt (List.rel_of_pairwise_cons h.increasing hother)
  between i other hother := by
    cases i with
    | zero =>
      cases hother
      exact ⟨left, right, rfl, rfl, hleft, hright⟩
    | succ i => exact h.between i other hother

section
variable {input : Input} {tokens : Array Token} (cuts : input.Cuts tokens)
include cuts

/-- A comma that is found between two trees is between the nodes made of them. -/
theorem gives_comma {u v : Concrete} {left right : Node}
    (hleft : LiesIn input tokens u.stretch left) (hright : LiesIn input tokens v.stretch right) :
    Gives (fun comma => left.range.stop ≤ comma ∧ comma + 1 ≤ right.range.start)
      (Lowering.position (.ofTokens tokens) .comma u.after v.start) := by
  unfold Lowering.position
  split
  · rename_i p hp
    obtain ⟨i, hi, rfl⟩ := Option.map_eq_some_iff.mp hp
    obtain ⟨_, _, t, ht, hkind⟩ := Lowering.index?_spec hi
    rw [TokenTable.ofTokens_tokens] at ht
    obtain ⟨j, hsees, rfl, hafter, hbefore⟩ := Lowering.sees_of_index? cuts.toOver rfl hi
    obtain ⟨p, _, hprange, hptakes⟩ := hleft.seat
    obtain ⟨q, _, hqrange, hqtakes⟩ := hright.seat
    have hpj : p.stop ≤ input.indexAt j :=
      (hptakes j hsees.lt_size).2.resolve_left (Nat.not_lt_of_le hafter)
    have hjq : input.indexAt j + 1 ≤ q.start :=
      (hqtakes j hsees.lt_size).1.resolve_left (Nat.not_le_of_lt hbefore)
    have htext : t.text = "," :=
      cuts.spelled t (Array.mem_of_getElem? ht) "," (by rw [hkind]; rfl)
    have hsucc : TokenTable.offset (.ofTokens tokens) (input.indexAt j + 1) =
        TokenTable.offset (.ofTokens tokens) (input.indexAt j) + 1 := by
      rw [TokenTable.offset_succ ht, Token.length, htext]
      rfl
    refine gives_ok ⟨?_, ?_⟩
    · rw [hprange]
      exact TokenTable.offset_mono tokens hpj
    · rw [hqrange, ← hsucc]
      exact TokenTable.offset_mono tokens hjq
  · exact gives_error

theorem gives_separated {ts : List Concrete} {items : List Node}
    (h : List.Forall₂ (fun t n => LiesIn input tokens t.stretch n) ts items) :
    Gives (Separated items) (Lowering.commas (.ofTokens tokens) ts) := by
  induction h with
  | nil => exact gives_ok separated_nil
  | cons hleft hrest ih =>
    cases hrest with
    | nil => exact gives_ok (separated_singleton _)
    | @cons v right _ _ hright _ =>
      obtain ⟨s, hle, hrange, _⟩ := hright.seat
      have hright_le : right.range.start ≤ right.range.stop := by
        rw [hrange]
        exact TokenTable.offset_mono tokens hle
      rw [Lowering.commas]
      refine (gives_comma cuts hleft hright).bind fun comma hcomma => ?_
      exact ih.bind fun commas hcommas =>
        gives_ok (hcommas.cons hcomma.1 hcomma.2 hright_le)

end

/-- The items of a node, if it has any, are separated. -/
def Node.IsSeparated (n : Node) : Prop :=
  ∀ items commas, n.row? = some (items, commas) → Separated items commas

theorem Separated.isSeparated {items : List Node} {commas : List Nat} {n : Node}
    (h : Separated items commas) (hrow : n.row? = some (items, commas)) : n.IsSeparated := by
  intro items' commas' hrow'
  rw [hrow] at hrow'
  cases hrow'
  exact h

/-! The rules that make rows. -/

section
variable {input : Input} {tokens : Array Token} {b : Builder} {t : Concrete} {a : Ancestry}
  (cuts : input.Cuts tokens) (ht : input.Snug t)
include cuts ht

omit ht in
/-- Items that are made of trees one by one, and the commas between these trees. -/
theorem Lowered.gives_row {α : Type} {P : α → Prop} {ts : List Concrete}
    {item : Concrete → Lowered Node} {f : List Node → List Nat → Lowered α}
    (hitem : ∀ u ∈ ts, Gives (LiesIn input tokens u.stretch) (item u))
    (hf : ∀ items commas, Separated items commas → Gives P (f items commas)) :
    Gives P (do
      let items ← ts.mapM item
      let commas ← Lowering.commas (.ofTokens tokens) ts
      f items commas) :=
  (gives_forall₂ hitem).bind fun items hitems =>
    (gives_separated cuts hitems).bind fun commas hcommas => hf items commas hcommas

theorem separated_listed {item : Concrete → Lowered Node}
    (hitem : ∀ u, input.Snug u → Gives (LiesIn input tokens u.stretch) (item u)) :
    Gives (fun list => Separated list.items list.commas)
      (Lowering.listed (.ofTokens tokens) t item) := by
  unfold Lowering.listed
  split
  · exact gives_error
  · exact gives_row cuts (fun u hu => hitem u (ht.inside hu)) fun _ _ h => gives_ok h

variable (hb : b.Nests input tokens)
include hb

theorem separated_call :
    Gives Node.IsSeparated (Lowering.call (.ofTokens tokens) b t a) := by
  unfold Lowering.call
  refine gives_child.bind fun calleeTree _ => ?_
  refine gives_child.bind fun argumentsTree hargumentsTree => gives_any.bind fun callee _ => ?_
  refine (separated_listed cuts (ht.inside hargumentsTree) fun u hu => hb.expression u _ hu).bind
    fun list hlist => gives_ok ?_
  exact hlist.isSeparated rfl

omit hb in
theorem separated_function :
    Gives Node.IsSeparated (Lowering.function (.ofTokens tokens) b t a) := by
  unfold Lowering.function
  refine gives_any.bind fun word _ => ?_
  split
  rename_i nameTree rest hparts
  have hrest : ∀ u ∈ rest, u ∈ t.children := by
    split at hparts
    · rename_i first others hchildren
      rw [hchildren] at hparts ⊢
      split at hparts <;> cases hparts
      · exact fun u hu => List.mem_cons_of_mem first hu
      · exact fun u hu => hu
    · cases hparts
      exact nofun
  dsimp only
  split
  · refine Gives.next rfl (gives_any.bind fun name _ => ?_)
    have hparameters := ht.inside (hrest _ List.mem_cons_self)
    refine (separated_listed cuts hparameters fun u hu => lies_identifier cuts hu).bind
      fun list hlist => ?_
    exact gives_any.bind fun body _ => gives_ok (hlist.isSeparated rfl)
  · exact gives_error

theorem separated_array :
    Gives Node.IsSeparated (Lowering.array (.ofTokens tokens) b t a) := by
  unfold Lowering.array
  refine gives_any.bind fun openBracket _ => ?_
  exact gives_row cuts (fun u hu => lies_item cuts (ht.inside hu) hb) fun _ _ h =>
    gives_ok (h.isSeparated rfl)

theorem separated_object :
    Gives Node.IsSeparated (Lowering.object (.ofTokens tokens) b t a) := by
  unfold Lowering.object
  dsimp only
  split
  · refine Gives.next rfl ?_
    exact gives_row cuts (fun u hu => lies_objectMember cuts (ht.inside hu) hb) fun _ _ h =>
      gives_ok (h.isSeparated rfl)
  · exact gives_error

theorem separated_comma :
    Gives Node.IsSeparated (Lowering.comma (.ofTokens tokens) b t a) := by
  unfold Lowering.comma
  exact gives_row cuts (fun u hu => hb.expression u _ (ht.inside hu)) fun _ _ h =>
    gives_ok (h.isSeparated rfl)

theorem separated_variableDeclaration :
    Gives Node.IsSeparated (Lowering.variableDeclaration (.ofTokens tokens) b t a) := by
  unfold Lowering.variableDeclaration
  refine gives_any.bind fun word _ => ?_
  exact gives_row cuts (fun u hu => lies_declarator cuts (ht.inside hu) hb) fun _ _ h =>
    gives_ok (h.isSeparated rfl)

theorem separated_constStatement :
    Gives Node.IsSeparated (Lowering.constStatement (.ofTokens tokens) b t a) := by
  unfold Lowering.constStatement
  refine gives_any.bind fun word _ => ?_
  exact gives_row cuts (fun u hu => lies_declarator cuts (ht.inside hu) hb) fun _ _ h =>
    gives_ok (h.isSeparated rfl)

theorem isSeparated_of_gathers {n : Node} (h : Lowering.Gathers (.ofTokens tokens) b t n) :
    n.IsSeparated := by
  cases h with
  | call _ h => exact separated_call cuts ht hb n h
  | function _ h => exact separated_function cuts ht n h
  | array _ h => exact separated_array cuts ht hb n h
  | object _ h => exact separated_object cuts ht hb n h
  | comma _ h => exact separated_comma cuts ht hb n h
  | variableDeclaration _ h => exact separated_variableDeclaration cuts ht hb n h
  | constStatement _ h => exact separated_constStatement cuts ht hb n h
  | switchStatement hkind _ =>
    cases n with
    | call | function | array | object | comma | variableDeclaration | constStatement => cases hkind
    | _ => exact nofun

end

theorem Node.hasRow_of_row? {n : Node} {row : List Node × List Nat} (h : n.row? = some row) :
    n.hasRow = true := by
  cases n <;> first | rfl | cases h

/-- The items of all nodes of a script that comes of a tree of the grammar. -/
theorem separated_script {input : Input} {tokens : Array Token} (cuts : input.Cuts tokens)
    {e limit : Nat} {tree : Concrete} {script : Script}
    (h : Derives input .statements 0 input.significant.size e tree.children)
    (hscript : Script.ofConcrete tokens limit (some tree) = .ok script) :
    ∀ n ∈ script.toNode.preorder, n.IsSeparated := by
  let w : Pairing := .alone (.ofTokens tokens) limit input.Snug fun t ht u hu => ht.inside hu
  have hsame : List.Forall₂ w.same tree.children tree.children := by
    refine List.forall₂_same.mpr fun t ht => ⟨rfl, ?_⟩
    exact ((h.fits cuts.toOver (Nat.zero_le _)).2.2 t ht).snug
  obtain ⟨statements, hstatements, rfl⟩ := ofConcrete_eq_ok hscript
  have hgrown : ∀ n ∈ statements, w.Grown 0 n :=
    (w.alike_statements (Nat.le_refl limit) hsame rfl).gives statements hstatements
  intro n hn items commas hrow
  obtain ⟨fuel, t, _, ⟨_, ht⟩, hgathers⟩ :=
    Pairing.made_of_hasRow hgrown hn (Node.hasRow_of_row? hrow)
  have hnests := Builder.within_nests cuts limit fuel
  exact isSeparated_of_gathers cuts ht hnests hgathers items commas hrow

/-- Commas stand between their items, one between any two neighbours, in text with faults too. -/
theorem parse_items_separated [Alphabet] (source : String) (options : ParseOptions) :
    ∀ n ∈ (parse source options).script.toNode.preorder, ∀ items commas,
      n.row? = some (items, commas) → Separated items commas := by
  have cuts := Input.ofSource_cuts source options.xmlLiterals
  intro n hn
  rcases parse_script_cases source options with hempty | ⟨root, c, hread, hscript⟩
  · rw [hempty, Node.preorder_eq] at hn
    rcases List.mem_cons.mp hn with rfl | hn
    · exact nofun
    · obtain ⟨c, hc, -⟩ := List.mem_flatMap.mp hn
      rcases List.mem_merge.mp hc with hc | hc <;> cases hc
  · obtain ⟨ts, rfl, hts⟩ := program_derives hread
    exact separated_script cuts hts hscript n hn

/-- A hole in an array stands between two commas. -/
theorem parse_items_separated_hole :
    let hole : Node := .emptyExpression ⟨3, 3⟩
    let one : Node := .literal ⟨1, 2⟩ .decimal "1"
    let two : Node := .literal ⟨4, 5⟩ .decimal "2"
    let array : Node := .array ⟨0, 6⟩ 0 [one, hole, two] [2, 3] (some 5)
    array ∈ (parse "[1,,2]" .default).script.toNode.preorder ∧
      Separated [one, hole, two] [2, 3] := by
  intro hole one two array
  have hscript : (parse "[1,,2]" .default).script.toNode =
      .script ⟨0, 6⟩ [.expressionStatement ⟨0, 6⟩ array none] [] := rfl
  have hmem : array ∈ (parse "[1,,2]" .default).script.toNode.preorder := by
    rw [hscript]
    apply Node.mem_preorder_of_mem_children (c := .expressionStatement ⟨0, 6⟩ array none)
    · simp [Node.children]
    · exact Node.mem_preorder_of_mem_children List.mem_cons_self array.mem_preorder_self
  exact ⟨hmem, parse_items_separated "[1,,2]" .default array hmem _ _ rfl⟩

end ScriptTree
