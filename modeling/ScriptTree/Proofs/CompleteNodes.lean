import ScriptTree.Proofs.NestedRanges

/-!
Nothing is made up in silence. If nothing was reported, no node stands for something that is
missing: names have letters, only what a construct lets be left out is empty, the keywords and marks
that it takes are there, and its parts lie in the order in which it is written.
-/
namespace ScriptTree

/-- A significant token of a list that begins at `pos`. -/
def Token.BeginsAt (t : Token) (tokens : Array Token) (pos : Nat) : Prop :=
  t.isHidden = false ∧
    ∃ i : Nat, tokens[i]? = some t ∧ TokenTable.offset (.ofTokens tokens) i = pos

/-- Token `t`, which begins at `start`, is the first significant one from `pos` on. -/
structure Token.ComesNext (t : Token) (tokens : Array Token) (pos start : Nat) : Prop where
  begins : t.BeginsAt tokens start
  le : pos ≤ start
  first : ∀ (u : Token) (other : Nat), u.BeginsAt tokens other → pos ≤ other → start ≤ other

/-- Parts that lie from `low` on and up to `high`, each after those before it. A node takes its
range, and a sign the token at its position. -/
def Part.InTurn (tokens : Array Token) (high : Nat) : (low : Nat) → List Part → Prop
  | _, [] => True
  | low, .node n :: rest =>
    low ≤ n.range.start ∧ n.range.start ≤ n.range.stop ∧ n.range.stop ≤ high ∧
      InTurn tokens high n.range.stop rest
  | low, .sign pos :: rest =>
    low ≤ pos ∧ ∃ t : Token, t.BeginsAt tokens pos ∧ pos + t.length ≤ high ∧
      InTurn tokens high (pos + t.length) rest
  | low, .gap _ _ _ :: rest => InTurn tokens high low rest

theorem Part.InTurn.mono {tokens : Array Token} {high low low' : Nat} {parts : List Part}
    (h : InTurn tokens high low' parts) (hlow : low ≤ low') : InTurn tokens high low parts := by
  induction parts with
  | nil => trivial
  | cons part rest ih =>
    cases part with
    | node n => exact ⟨Nat.le_trans hlow h.1, h.2⟩
    | sign pos => exact ⟨Nat.le_trans hlow h.1, h.2⟩
    | gap => exact ih h

theorem Part.InTurn.widen {tokens : Array Token} {high high' low : Nat} {parts : List Part}
    (h : InTurn tokens high low parts) (hhigh : high ≤ high') : InTurn tokens high' low parts := by
  induction parts generalizing low with
  | nil => trivial
  | cons part rest ih =>
    cases part with
    | node n =>
      obtain ⟨hlow, hle, hstop, hrest⟩ := h
      exact ⟨hlow, hle, Nat.le_trans hstop hhigh, ih hrest⟩
    | sign pos =>
      obtain ⟨hlow, t, ht, hstop, hrest⟩ := h
      exact ⟨hlow, t, ht, Nat.le_trans hstop hhigh, ih hrest⟩
    | gap => exact ih h

/-- Whether a loop has an `each` just if one comes next after its first keyword. -/
def Node.KeepsEach (tokens : Array Token) : Node → Prop
  | .forInStatement _ word eachKeyword _ _ _ _ _ _ => eachKeyword.isSome = true ↔
    ∃ (t : Token) (start : Nat), t.ComesNext tokens word.range.stop start ∧ t.kind = .eachKeyword
  | _ => True

/-- A node of a tree in which nothing is made up. -/
structure Node.WellWritten (tokens : Array Token) (n : Node) : Prop where
  named : ∀ r, n ≠ .identifier r ""
  filled : ∀ c ∈ n.required, ∀ r, c ≠ .emptyExpression r
  complete : n.isComplete = true
  each : n.KeepsEach tokens
  in_turn : Part.InTurn tokens n.range.stop n.range.start n.parts

section
variable {input : Input} {tokens : Array Token} {leeway : Leeway} {p q m : Nat} {n : Node}
  {k : Kind} {parts : List Part}

theorem Input.Spans.le (cuts : input.Cuts tokens) (h : input.Spans tokens p m n.range) :
    n.range.start ≤ n.range.stop := by
  rw [h.start_eq, h.stop_eq]
  exact Nat.le_of_lt (cuts.startAt_lt_stopAt h.le_size h.lt)

/-- A node that goes from one token to another, in front of parts after them. -/
theorem Input.Spans.inTurn_cons (cuts : input.Cuts tokens)
    (hspans : input.Spans tokens p m n.range) (hmq : m ≤ q) (hq : q ≤ input.significant.size)
    (hparts : Part.InTurn tokens (input.stopAt tokens q) (input.stopAt tokens m) parts) :
    Part.InTurn tokens (input.stopAt tokens q) (input.startAt tokens p) (.node n :: parts) := by
  refine ⟨Nat.le_of_eq hspans.start_eq.symm, hspans.le cuts, ?_, ?_⟩
  · rw [hspans.stop_eq]
    exact cuts.stopAt_mono hq hmq
  · rw [hspans.stop_eq]
    exact hparts

/-- What is written with some tokens lies between the first and the last, in turn. -/
theorem SpellsWith.inTurn (cuts : input.Cuts tokens) (h : SpellsWith input tokens leeway p q parts)
    (hq : q ≤ input.significant.size) :
    Part.InTurn tokens (input.stopAt tokens q) (input.startAt tokens p) parts := by
  induction h with
  | nil => trivial
  | @sign p k _ q _ hsees hrest ih =>
    obtain ⟨t, ht, _, hhidden, htext⟩ := cuts.token_of_sees hsees
    have hstop : input.startAt tokens p + t.length = input.stopAt tokens (p + 1) := by
      rw [cuts.stopAt_succ hsees.lt_size, Token.length, htext]
    refine ⟨Nat.le_refl _, t, ⟨hhidden, _, ht, rfl⟩, ?_, ?_⟩
    · rw [hstop]
      exact cuts.stopAt_mono hq hrest.le
    · rw [hstop]
      exact (ih hq).mono (cuts.stopAt_le_startAt (p + 1))
  | word hsees _ _ hrange hrest ih =>
    have hspans := cuts.spans_rangeAt hsees.lt_size
    rw [← hrange] at hspans
    exact hspans.inTurn_cons cuts hrest.le hq ((ih hq).mono (cuts.stopAt_le_startAt _))
  | inner _ _ _ _ hspans _ hrest _ ih =>
    exact hspans.inTurn_cons cuts hrest.le hq ((ih hq).mono (cuts.stopAt_le_startAt _))
  | hole hlt _ ih =>
    exact ⟨Nat.le_refl _, Nat.le_refl _, Nat.le_of_lt (cuts.startAt_lt_stopAt hq hlt), ih hq⟩
  | @bare p word q _ hsees hword hrest ih =>
    have hspans : input.Spans tokens p (p + 1) (Node.keyword word).range := by
      rw [hword]
      exact cuts.spans_rangeAt hsees.lt_size
    refine hspans.inTurn_cons cuts hrest.le hq ⟨Nat.le_refl _, Nat.le_refl _, ?_, ?_⟩
    · exact cuts.stopAt_mono hq hrest.le
    · exact (ih hq).mono (cuts.stopAt_le_startAt _)
  | filled _ _ _ _ _ ih => exact (ih hq).mono (cuts.startAt_mono (Nat.le_succ _))
  | unfilled _ _ ih => exact ih hq

/-! What is not empty. -/

theorem Node.ne_emptyExpression_of_isWord (h : n.isWord = true) (r : Range) :
    n ≠ .emptyExpression r := by
  rintro rfl
  cases h

/-- An empty expression is written with no token. -/
theorem Input.Spans.ne_emptyExpression (hspans : input.Spans tokens p m n.range)
    (hparts : SpellsWith input tokens leeway p m n.parts) (r : Range) :
    n ≠ .emptyExpression r := by
  rintro rfl
  cases hparts
  exact Nat.lt_irrefl _ hspans.lt

theorem SpellsWith.ne_emptyExpression (h : SpellsWith input tokens leeway p q parts)
    (hleeway : leeway = .nothing) : ∀ n ∈ Part.nodes parts, ∀ r, n ≠ .emptyExpression r := by
  induction h with
  | nil => nofun
  | sign _ _ ih | filled _ _ _ _ _ ih | unfilled _ _ ih => exact ih hleeway
  | word _ hword _ _ _ ih =>
    exact List.forall_mem_cons.mpr ⟨Node.ne_emptyExpression_of_isWord hword, ih hleeway⟩
  | inner _ _ _ _ hspans hparts _ _ ih =>
    exact List.forall_mem_cons.mpr ⟨hspans.ne_emptyExpression hparts, ih hleeway⟩
  | hole | bare => cases hleeway

theorem getLast?_cons_cases {α : Type} {a b : α} {rest : List α}
    (h : (a :: rest).getLast? = some b) : rest = [] ∧ a = b ∨ rest.getLast? = some b := by
  cases rest with
  | nil => exact .inl ⟨rfl, Option.some.inj h⟩
  | cons c rest => exact .inr h

/-- What is left out stands before a mark, so that the last part is not left out. -/
theorem SpellsWith.last_ne_emptyExpression (h : SpellsWith input tokens leeway p q parts)
    (hleeway : leeway = .clauses) (hlast : parts.getLast? = some (.node n)) (r : Range) :
    n ≠ .emptyExpression r := by
  induction h with
  | nil => cases hlast
  | sign _ _ ih | filled _ _ _ _ _ ih | unfilled _ _ ih =>
    obtain ⟨-, heq⟩ | hlast := getLast?_cons_cases hlast
    · cases heq
    · exact ih hleeway hlast
  | word _ hword _ _ _ ih =>
    obtain ⟨-, heq⟩ | hlast := getLast?_cons_cases hlast
    · cases heq
      exact Node.ne_emptyExpression_of_isWord hword r
    · exact ih hleeway hlast
  | inner _ _ _ _ hspans hparts _ _ ih =>
    obtain ⟨-, heq⟩ | hlast := getLast?_cons_cases hlast
    · cases heq
      exact hspans.ne_emptyExpression hparts r
    · exact ih hleeway hlast
  | hole hlt hrest ih =>
    obtain ⟨rfl, -⟩ | hlast := getLast?_cons_cases hlast
    · cases hrest
      exact absurd hlt (Nat.lt_irrefl _)
    · exact ih hleeway hlast
  | bare => cases hleeway

/-- Only the operand of a `yield` is left out. -/
theorem SpellsWith.operand_ne_emptyExpression {word : Keyword} {operand : Node}
    (h : SpellsWith input tokens .operand p q [.node (.keyword word), .node operand])
    (hword : word.token ≠ .yieldKeyword) (r : Range) : operand ≠ .emptyExpression r := by
  cases h with
  | word _ _ _ _ h =>
    cases h with
    | word _ hword => exact Node.ne_emptyExpression_of_isWord hword r
    | inner _ _ _ _ hspans hparts => exact hspans.ne_emptyExpression hparts r
  | inner hword => cases hword
  | bare _ heq =>
    rw [heq] at hword
    exact absurd rfl hword

/-- What is inside a node is empty only where its construct lets it be left out. -/
theorem SpellsWith.required_ne_emptyExpression
    (h : SpellsWith input tokens n.leeway p q n.parts) (hscript : n.isScript = false) :
    ∀ c ∈ n.required, ∀ r, c ≠ .emptyExpression r := by
  cases n with
  | forStatement _ _ openParen _ _ _ _ _ closeParen body =>
    refine List.forall_mem_cons.mpr ⟨nofun, List.forall_mem_singleton.mpr ?_⟩
    apply h.last_ne_emptyExpression rfl
    simp [Node.parts, List.getLast?_cons, List.getLast?_append]
  | array => exact List.forall_mem_nil _
  | keywordOperation _ word operand =>
    rw [Node.required]
    split
    · exact List.forall_mem_singleton.mpr nofun
    · rename_i hyield
      refine List.forall_mem_cons.mpr ⟨nofun, List.forall_mem_singleton.mpr ?_⟩
      exact h.operand_ne_emptyExpression hyield
  | _ =>
    have hall := h.ne_emptyExpression rfl
    rw [Node.nodes_parts hscript] at hall
    exact hall

/-! What comes next. -/

namespace Input.Cuts
variable (cuts : input.Cuts tokens)
include cuts

theorem rank_of_beginsAt {t : Token} {pos : Nat} (h : t.BeginsAt tokens pos) :
    ∃ j < input.significant.size, input.startAt tokens j = pos := by
  obtain ⟨hhidden, i, hi, rfl⟩ := h
  obtain ⟨j, hj, rfl, _⟩ := cuts.sees_of_token hi hhidden
  exact ⟨j, hj, rfl⟩

/-- The token of rank `q` comes next after those before it. -/
theorem comesNext (hq : q < input.significant.size) :
    ∃ t : Token, t.ComesNext tokens (input.stopAt tokens q) (input.startAt tokens q) ∧
      t.kind = input.kindAt q ∧ t.lineBreakBefore = input.brokenAt q := by
  have hx := Array.getElem?_eq_getElem hq
  obtain ⟨htoken, hhidden⟩ := cuts.placed hx
  have hindex : (input.significant[q]).index = input.indexAt q := by simp [indexAt, hq]
  refine ⟨_, ⟨⟨hhidden, _, hindex ▸ htoken, rfl⟩, cuts.stopAt_le_startAt q, ?_⟩, ?_, ?_⟩
  · -- A token of a lower rank begins before the last of these has ended.
    intro u other hu hle
    obtain ⟨j, _, rfl⟩ := cuts.rank_of_beginsAt hu
    refine cuts.startAt_mono ?_
    by_contra hlt
    have := cuts.startAt_lt_stopAt (Nat.le_of_lt hq) (Nat.lt_of_not_le hlt)
    omega
  · simp [kindAt, hx]
  · simp [brokenAt, hx]

/-- The next significant token is the one of the next rank. -/
theorem comesNext_iff (hp : p < input.significant.size) :
    (∃ (t : Token) (start : Nat), t.ComesNext tokens (input.stopAt tokens (p + 1)) start ∧
      t.kind = k) ↔ input.Sees (p + 1) k := by
  constructor
  · rintro ⟨t, start, ⟨⟨hhidden, i, ht, rfl⟩, hle, hfirst⟩, rfl⟩
    obtain ⟨j, hj, rfl, hsees⟩ := cuts.sees_of_token ht hhidden
    have hlt : p < j :=
      cuts.rank_lt_of_startAt_lt (Nat.lt_of_lt_of_le (cuts.startAt_lt_stopAt_succ hp) hle)
    rcases Nat.lt_or_eq_of_le (Nat.succ_le_of_lt hlt) with hbetween | rfl
    · -- The token of rank `p + 1` would come before it.
      obtain ⟨u, hnext, -⟩ := cuts.comesNext (Nat.lt_trans hbetween hj)
      have hge := hfirst u _ hnext.begins hnext.le
      exact absurd hge (Nat.not_le_of_lt (cuts.startAt_lt (Nat.lt_trans hbetween hj) hbetween))
    · exact hsees
  · intro hsees
    obtain ⟨t, hnext, hkind, -⟩ := cuts.comesNext hsees.lt_size
    exact ⟨t, _, hnext, hkind.trans (kindAt_eq_of_sees hsees)⟩

end Input.Cuts

theorem Input.Lays.keepsEach (cuts : input.Cuts tokens) (hlays : input.Lays p m n)
    (hparts : SpellsWith input tokens n.leeway p m n.parts) : n.KeepsEach tokens := by
  cases n with
  | forInStatement _ word eachKeyword =>
    cases hparts with
    | word hsees _ _ hrange _ =>
      have hspans := cuts.spans_rangeAt hsees.lt_size
      rw [← hrange] at hspans
      have hstop : word.range.stop = input.stopAt tokens (p + 1) := hspans.stop_eq
      rw [Node.KeepsEach, hstop, cuts.comesNext_iff hsees.lt_size]
      exact hlays
    | inner hword => cases hword
  | _ => trivial

/-! From parts to nodes. -/

theorem wellWritten_emptyExpression (pos : Nat) : (Node.emptyAt pos).WellWritten tokens :=
  ⟨nofun, nofun, rfl, trivial, trivial⟩

theorem wellWritten_word (hword : n.isWord = true) (hname : n.isNameless = false) :
    n.WellWritten tokens where
  named := by
    rintro r rfl
    cases hname
  filled := by
    have hrequired : n.required = n.children := by
      cases n <;> first | rfl | cases hword
    rw [hrequired, Node.children_of_isWord hword]
    nofun
  complete := by
    cases n <;> first | rfl | cases hword
  each := by
    cases n <;> trivial
  in_turn := by
    rw [Node.parts_of_isWord hword]
    trivial

/-- A node without others inside it. -/
theorem wellWritten_preorder_of_no_children (h : n.WellWritten tokens)
    (hchildren : n.children = []) : ∀ d ∈ n.preorder, d.WellWritten tokens := by
  rw [Node.preorder_eq, hchildren]
  exact List.forall_mem_singleton.mpr h

/-- Nothing is made up in what is written with some tokens. -/
theorem SpellsWith.wellWritten (cuts : input.Cuts tokens)
    (h : SpellsWith input tokens leeway p q parts) :
    ∀ n ∈ Part.nodes parts, ∀ d ∈ n.preorder, d.WellWritten tokens := by
  induction h with
  | nil => nofun
  | sign _ _ ih | filled _ _ _ _ _ ih | unfilled _ _ ih => exact ih
  | word _ hword hname _ _ ih =>
    refine List.forall_mem_cons.mpr ⟨?_, ih⟩
    exact wellWritten_preorder_of_no_children (wellWritten_word hword hname)
      (Node.children_of_isWord hword)
  | @inner n p m _ _ _ hword hscript hcomplete hlays hspans hparts _ ihparts ih =>
    refine List.forall_mem_cons.mpr ⟨fun d hd => ?_, ih⟩
    rw [Node.nodes_parts hscript] at ihparts
    rw [Node.preorder_eq] at hd
    rcases List.mem_cons.mp hd with rfl | hd
    · refine ⟨?_, hparts.required_ne_emptyExpression hscript, hcomplete,
        hlays.keepsEach cuts hparts, ?_⟩
      · rintro r rfl
        cases hword
      · rw [hspans.start_eq, hspans.stop_eq]
        exact hparts.inTurn cuts hspans.le_size
    · obtain ⟨c, hc, hd⟩ := List.mem_flatMap.mp hd
      exact ihparts c hc d hd
  | hole _ _ ih =>
    refine List.forall_mem_cons.mpr ⟨?_, ih⟩
    exact wellWritten_preorder_of_no_children (wellWritten_emptyExpression _) rfl
  | bare _ _ _ ih =>
    refine List.forall_mem_cons.mpr ⟨?_, List.forall_mem_cons.mpr ⟨?_, ih⟩⟩
    · exact wellWritten_preorder_of_no_children (wellWritten_word rfl rfl) rfl
    · exact wellWritten_preorder_of_no_children (wellWritten_emptyExpression _) rfl

end

theorem WrittenScript.wellWritten [Alphabet] {source : String} {xmlLiterals : Bool}
    {script : Script} (h : WrittenScript source xmlLiterals script) :
    script.toNode.WellWritten (tokenize source xmlLiterals).tokens where
  named := nofun
  filled := by
    have hstatements := h.spells.ne_emptyExpression rfl
    rw [Part.nodes_map_node] at hstatements
    intro c hc
    rcases List.mem_merge.mp hc with hc | hc
    · obtain ⟨comment, _, rfl⟩ := List.mem_map.mp hc
      nofun
    · exact hstatements c hc
  complete := rfl
  each := trivial
  in_turn := by
    have hturn := h.spells.inTurn (Input.ofSource_cuts source xmlLiterals) (Nat.le_refl _)
    rw [Script.toNode, Node.range, h.range_eq]
    exact (hturn.mono (Nat.zero_le _)).widen (TokenTable.offset_le_length _ _)

/-- Where nothing is reported, no node of the script stands for something that is missing. -/
theorem parse_wellWritten [Alphabet] {source : String} {options : ParseOptions}
    (h : (parse source options).diagnostics = #[]) :
    ∀ n ∈ (parse source options).script.toNode.preorder,
      n.WellWritten (tokenize source options.xmlLiterals).tokens := by
  have cuts := Input.ofSource_cuts source options.xmlLiterals
  have hwritten := parse_writtenScript h
  have hspells := hwritten.spells.wellWritten cuts
  rw [Part.nodes_map_node] at hspells
  intro n hn
  rw [Node.preorder_eq] at hn
  rcases List.mem_cons.mp hn with rfl | hn
  · exact hwritten.wellWritten
  · obtain ⟨c, hc, hn⟩ := List.mem_flatMap.mp hn
    rcases List.mem_merge.mp hc with hc | hc
    · obtain ⟨comment, _, rfl⟩ := List.mem_map.mp hc
      have hcomment : (Node.comment comment).WellWritten
          (tokenize source options.xmlLiterals).tokens := ⟨nofun, nofun, rfl, trivial, trivial⟩
      exact wellWritten_preorder_of_no_children hcomment rfl n hn
    · exact hspells c hc n hn

/-- The loop has no clauses and the array begins with a hole, but nothing is missing. -/
theorem parse_wellWritten_clauses :
    let source := "for (;;) x = [, yield];"
    let parsed := parse source .default
    parsed.diagnostics = #[] ∧ ∀ n ∈ parsed.script.toNode.preorder,
      n.WellWritten (tokenize source true).tokens :=
  ⟨rfl, parse_wellWritten rfl⟩

end ScriptTree
