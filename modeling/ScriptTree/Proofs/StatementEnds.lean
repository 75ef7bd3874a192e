import ScriptTree.Proofs.CompleteNodes
import ScriptTree.Proofs.LineBreaks

/-!
Where statements end. A statement takes the semicolon that comes next, and does without one only at
the end of the text, before a closing brace or where a line ends. Some constructs stay on a line: no
line ends after their first word, or before the operator at their end. A `throw` does not.
-/
namespace ScriptTree

/-- A statement may end at `pos` without a semicolon: no significant token follows, or a closing
brace does, or one before which a line ends. -/
def MayEndAt (source : String) (tokens : Array Token) (pos : Nat) : Prop :=
  (∀ (u : Token) (other : Nat), u.BeginsAt tokens other → other < pos) ∨
    ∃ (t : Token) (start : Nat), t.ComesNext tokens pos start ∧
      (t.kind = .closeBrace ∨ Range.Breaks source ⟨pos, start⟩ true)

/-- A statement ends at `stop`, and all but its semicolon ends at `pos`. The semicolon is the next
token; without one the statement ends where it may. -/
def EndsAfter (source : String) (tokens : Array Token) (pos stop : Nat) :
    (semicolon : Option Nat) → Prop
  | some start => stop = start + 1 ∧ ∃ t : Token, t.ComesNext tokens pos start ∧ t.kind = .semicolon
  | none => stop = pos ∧ MayEndAt source tokens stop

/-- How a node goes with the lines of its source: statements end with a semicolon or where they may,
and no line ends after the word of a `return`, of a jump or of a `yield` that something follows, nor
before an operator that follows its operand. -/
def Node.KeepsLines (source : String) (tokens : Array Token) : Node → Prop
  | .expressionStatement r last semicolon | .throwStatement r _ last semicolon
  | .defaultXmlNamespaceStatement r _ _ _ _ last semicolon =>
    EndsAfter source tokens last.range.stop r.stop semicolon
  | .constStatement r _ _ _ semicolon => semicolon = none → MayEndAt source tokens r.stop
  | .returnStatement r word value semicolon =>
    EndsAfter source tokens (value.elim word.range Node.range).stop r.stop semicolon ∧
      ∀ v ∈ value, Range.Breaks source ⟨word.range.stop, v.range.start⟩ false
  | .jumpStatement r word target semicolon =>
    EndsAfter source tokens (target.elim word.range Label.range).stop r.stop semicolon ∧
      ∀ l ∈ target, Range.Breaks source ⟨word.range.stop, l.range.start⟩ false
  | .keywordOperation _ word operand =>
    word.token = .yieldKeyword → (∀ r, operand ≠ .emptyExpression r) →
      Range.Breaks source ⟨word.range.stop, operand.range.start⟩ false
  | .unary _ operator position operand =>
    isTrailingOperator operator = true → Range.Breaks source ⟨operand.range.stop, position⟩ false
  | _ => True

/-- The tokens of a source, the flags of which tell where lines end. -/
structure Input.Lines (input : Input) (source : String) (tokens : Array Token) : Prop
    extends input.Cuts tokens where
  breaks : ∀ {p : Nat}, p < input.significant.size →
    Range.Breaks source ⟨input.stopAt tokens p, input.startAt tokens p⟩ (input.brokenAt p)

theorem Input.ofSource_lines [Alphabet] (source : String) (xmlLiterals : Bool) :
    (ofSource source xmlLiterals).Lines source (tokenize source xmlLiterals).tokens where
  toCuts := ofSource_cuts source xmlLiterals
  breaks := (ofSource_cuts source xmlLiterals).breaks_brokenAt (tokenize_faithful ..)
    fun _ _ => tokenize_flags

section
variable {input : Input} {source : String} {tokens : Array Token} {leeway : Leeway} {p q m : Nat}
  {n c : Node} {r : Range} {parts rest : List Part} {semicolon : Option Nat}

/-! Ranks and positions. -/

namespace Input.Lines
variable (lines : input.Lines source tokens)
include lines

theorem mayEndAt (hspans : input.Spans tokens p q r) (h : input.MayEnd q) :
    MayEndAt source tokens r.stop := by
  rw [hspans.stop_eq]
  by_cases hq : q < input.significant.size
  · obtain ⟨t, hnext, hkind, _⟩ := lines.comesNext hq
    refine .inr ⟨t, _, hnext, ?_⟩
    rcases h with hsize | hbrace | hbroken
    · omega
    · exact .inl (hkind.trans (kindAt_eq_of_sees hbrace))
    · exact .inr (hbroken ▸ lines.breaks hq)
  · refine .inl fun u other hu => ?_
    obtain ⟨j, hj, rfl⟩ := lines.rank_of_beginsAt hu
    exact lines.startAt_lt_stopAt hspans.le_size (by omega)

end Input.Lines

/-! The parts of a node in turn. -/

namespace SpellsWith

/-- The first part takes the first tokens, if it is not left out. -/
theorem first (cuts : input.Cuts tokens)
    (h : SpellsWith input tokens leeway p q (.node n :: rest))
    (hfull : ∀ c ∈ Part.nodes (.node n :: rest), ∀ r, c ≠ .emptyExpression r) :
    ∃ m, input.Spans tokens p m n.range ∧ (n.isWord = true → m = p + 1) ∧
      SpellsWith input tokens leeway m q rest := by
  cases h with
  | word hsees _ _ hrange hrest =>
    exact ⟨p + 1, hrange ▸ cuts.spans_rangeAt hsees.lt_size, fun _ => rfl, hrest⟩
  | inner hword _ _ _ hspans _ hrest =>
    refine ⟨_, hspans, fun h => ?_, hrest⟩
    rw [hword] at h
    cases h
  | hole => exact absurd rfl (hfull _ List.mem_cons_self _)
  | bare => exact absurd rfl (hfull _ (List.mem_cons_of_mem _ List.mem_cons_self) _)

/-- What comes after a word begins with the next token. -/
theorem second (cuts : input.Cuts tokens)
    (h : SpellsWith input tokens leeway p q (.node n :: .node c :: rest)) (hword : n.isWord = true)
    (hfull : ∀ d ∈ Part.nodes (.node n :: .node c :: rest), ∀ r, d ≠ .emptyExpression r) :
    n.range.stop = input.stopAt tokens (p + 1) ∧ c.range.start = input.startAt tokens (p + 1) ∧
      p + 1 < input.significant.size := by
  obtain ⟨m, hn, hm, hrest⟩ := h.first cuts hfull
  obtain rfl := hm hword
  obtain ⟨s, hc, _⟩ := hrest.first cuts (List.forall_mem_cons.mp hfull).2
  exact ⟨hn.stop_eq, hc.start_eq, Nat.lt_of_lt_of_le hc.lt hc.le_size⟩

/-- The last parts take the last tokens. -/
theorem drop (before : List Part) (h : Spells input tokens p q (before ++ rest)) :
    ∃ m, Spells input tokens m q rest := by
  induction before generalizing p with
  | nil => exact ⟨p, h⟩
  | cons part before ih =>
    cases h with
    | sign _ h | word _ _ _ _ h | inner _ _ _ _ _ _ h | filled _ _ _ _ h | unfilled _ h =>
      exact ih h

theorem of_sign {pos : Nat} (h : SpellsWith input tokens leeway p q [.sign pos]) :
    p < input.significant.size ∧ pos = input.startAt tokens p ∧ q = p + 1 := by
  cases h with
  | sign hsees h =>
    cases h
    exact ⟨hsees.lt_size, rfl, rfl⟩

end SpellsWith

/-! Nodes and lines. -/

/-- Node `n` is written with the tokens of rank `p` up to `q` and goes with their lines. -/
structure Input.Laid (input : Input) (tokens : Array Token) (p q : Nat) (n : Node) : Prop where
  lays : input.Lays p q n
  spans : input.Spans tokens p q n.range
  spells : SpellsWith input tokens n.leeway p q n.parts

/-- All nodes with parts are laid so. -/
theorem SpellsWith.laid (h : SpellsWith input tokens leeway p q parts) :
    ∀ n ∈ Part.nodes parts, ∀ d ∈ n.preorder, d.parts ≠ [] → ∃ p q, input.Laid tokens p q d := by
  have leaf {n : Node} (hchildren : n.children = []) (hparts : n.parts = []) :
      ∀ d ∈ n.preorder, d.parts ≠ [] → ∃ p q, input.Laid tokens p q d := by
    rw [Node.preorder_eq, hchildren]
    exact List.forall_mem_singleton.mpr fun hne => absurd hparts hne
  induction h with
  | nil => nofun
  | sign _ _ ih | filled _ _ _ _ _ ih | unfilled _ _ ih => exact ih
  | word _ hword _ _ _ ih =>
    refine List.forall_mem_cons.mpr ⟨?_, ih⟩
    exact leaf (Node.children_of_isWord hword) (Node.parts_of_isWord hword)
  | inner _ hscript _ hlays hspans hparts _ ihparts ih =>
    refine List.forall_mem_cons.mpr ⟨fun d hd hne => ?_, ih⟩
    rw [Node.nodes_parts hscript] at ihparts
    rw [Node.preorder_eq] at hd
    rcases List.mem_cons.mp hd with rfl | hd
    · exact ⟨_, _, hlays, hspans, hparts⟩
    · obtain ⟨c, hc, hd⟩ := List.mem_flatMap.mp hd
      exact ihparts c hc d hd hne
  | hole _ _ ih => exact List.forall_mem_cons.mpr ⟨leaf rfl rfl, ih⟩
  | bare _ _ _ ih =>
    exact List.forall_mem_cons.mpr ⟨leaf rfl rfl, List.forall_mem_cons.mpr ⟨leaf rfl rfl, ih⟩⟩

namespace Input.Lines
variable (lines : input.Lines source tokens)
include lines

/-- The end of a statement that has some parts, then node `c`, and then its semicolon. -/
theorem endsAfter (before : List Part) (hspans : input.Spans tokens p q r)
    (hcloses : input.Closes q semicolon)
    (h : Spells input tokens p q (before ++ .node c :: Part.sign? semicolon)) :
    EndsAfter source tokens c.range.stop r.stop semicolon := by
  obtain ⟨s, h⟩ := h.drop before
  obtain ⟨m, hc, _, h⟩ := h.first lines.toCuts (h.ne_emptyExpression rfl)
  cases semicolon with
  | none =>
    cases h
    exact ⟨hspans.stop_eq.trans hc.stop_eq.symm, lines.mayEndAt hspans hcloses⟩
  | some start =>
    -- The semicolon is the last token of the statement and the only one after `c`.
    obtain ⟨hm, rfl, rfl⟩ := h.of_sign
    have hsees : input.Sees m .semicolon := hcloses
    obtain ⟨t, hnext, hkind, _⟩ := lines.comesNext hm
    rw [← hc.stop_eq] at hnext
    refine ⟨?_, t, hnext, hkind.trans (kindAt_eq_of_sees hsees)⟩
    rw [hspans.stop_eq, lines.stopAt_succ_semicolon hsees]

/-- Whether a line ends after the word that is the first part of a node. -/
theorem breaks_second (h : SpellsWith input tokens leeway p q (.node n :: .node c :: rest))
    (hword : n.isWord = true)
    (hfull : ∀ d ∈ Part.nodes (.node n :: .node c :: rest), ∀ r, d ≠ .emptyExpression r) :
    Range.Breaks source ⟨n.range.stop, c.range.start⟩ (input.brokenAt (p + 1)) := by
  obtain ⟨hstop, hstart, hlt⟩ := h.second lines.toCuts hword hfull
  rw [hstop, hstart]
  exact lines.breaks hlt

/-- The end of a statement of which a word and what stays on its line are all. -/
theorem endsAfter_word {word : Keyword} {last : Option Node} (hspans : input.Spans tokens p q r)
    (hcloses : input.Closes q semicolon) (hline : last ≠ none → input.brokenAt (p + 1) = false)
    (h : Spells input tokens p q
      (.node (.keyword word) :: Part.node? last ++ Part.sign? semicolon)) :
    EndsAfter source tokens (last.elim word.range Node.range).stop r.stop semicolon ∧
      ∀ v ∈ last, Range.Breaks source ⟨word.range.stop, v.range.start⟩ false := by
  cases last with
  | none => exact ⟨lines.endsAfter [] (c := .keyword word) hspans hcloses h, nofun⟩
  | some v =>
    refine ⟨lines.endsAfter [.node (.keyword word)] hspans hcloses h, ?_⟩
    rintro _ ⟨⟩
    have hbreaks := lines.breaks_second h rfl (h.ne_emptyExpression rfl)
    rwa [hline nofun] at hbreaks

/-- A node that is written with some tokens keeps to their lines. -/
theorem keepsLines (h : input.Laid tokens p q n) : n.KeepsLines source tokens := by
  obtain ⟨hlays, hspans, hparts⟩ := h
  cases n with
  | expressionStatement => exact lines.endsAfter [] hspans hlays hparts
  | throwStatement _ word => exact lines.endsAfter [.node (.keyword word)] hspans hlays hparts
  | defaultXmlNamespaceStatement => exact lines.endsAfter _ hspans hlays hparts
  | constStatement _ _ _ _ semicolon =>
    rintro rfl
    exact lines.mayEndAt hspans hlays
  | returnStatement => exact lines.endsAfter_word hspans hlays.1 hlays.2 hparts
  | jumpStatement _ _ target =>
    have hends := lines.endsAfter_word hspans hlays.1
      (fun h => hlays.2 (mt (congrArg (Option.map Node.label)) h)) hparts
    cases target with
    | none => exact ⟨hends.1, nofun⟩
    | some l => exact ⟨hends.1, fun _ hl => hends.2 _ (Option.mem_map_of_mem _ hl)⟩
  | keywordOperation _ word operand =>
    intro hyield hoperand
    have hline := lines.breaks_second hparts rfl
      (List.forall_mem_cons.mpr ⟨nofun, List.forall_mem_singleton.mpr hoperand⟩)
    rwa [hlays hyield hoperand] at hline
  | unary _ operator position operand =>
    -- Only an operator at the end must not begin a line; its token is the last.
    intro htrailing
    rw [Node.parts, if_pos htrailing] at hparts
    obtain ⟨m, hoperand, _, hrest⟩ := hparts.first lines.toCuts (hparts.ne_emptyExpression rfl)
    obtain ⟨hm, rfl, rfl⟩ := hrest.of_sign
    have hline := lines.breaks hm
    rwa [← hoperand.stop_eq, show input.brokenAt m = false from hlays htrailing] at hline
  | _ => trivial

end Input.Lines
end

/-- Where nothing is reported, all nodes with parts are laid with the tokens of the source. -/
theorem parse_laid [Alphabet] {source : String} {options : ParseOptions}
    (h : (parse source options).diagnostics = #[]) :
    ∀ n ∈ (parse source options).script.toNode.preorder, n.isScript = false → n.parts ≠ [] →
      ∃ p q, (Input.ofSource source options.xmlLiterals).Laid
        (tokenize source options.xmlLiterals).tokens p q n := by
  have hlaid := (parse_writtenScript h).spells.laid
  rw [Part.nodes_map_node] at hlaid
  intro n hn hscript hparts
  rw [Node.preorder_eq] at hn
  rcases List.mem_cons.mp hn with rfl | hn
  · cases hscript
  · obtain ⟨c, hc, hn⟩ := List.mem_flatMap.mp hn
    rcases List.mem_merge.mp hc with hc | hc
    · obtain ⟨comment, _, rfl⟩ := List.mem_map.mp hc
      rw [Node.preorder_eq] at hn
      obtain rfl := List.mem_singleton.mp hn
      exact absurd rfl hparts
    · exact hlaid c hc n hn hparts

/-- Scripts and nodes without parts have nothing to do with lines. -/
theorem Node.keepsLines_of_no_parts {source : String} {tokens : Array Token} {n : Node}
    (h : n.isScript = true ∨ n.parts = []) : n.KeepsLines source tokens := by
  cases n with
  | expressionStatement | throwStatement | defaultXmlNamespaceStatement | constStatement
  | returnStatement | jumpStatement | keywordOperation =>
    rcases h with h | h
    · cases h
    · simp [parts] at h
  | unary _ operator =>
    rcases h with h | h
    · cases h
    · rw [parts] at h
      split at h <;> cases h
  | _ => trivial

/-- Where nothing is reported, statements end with the semicolon that comes next, or without one
where they may; and the constructs that stay on a line do. -/
theorem parse_nodes_keep_lines [Alphabet] {source : String} {options : ParseOptions}
    (h : (parse source options).diagnostics = #[]) :
    ∀ n ∈ (parse source options).script.toNode.preorder,
      n.KeepsLines source (tokenize source options.xmlLiterals).tokens := by
  intro n hn
  by_cases hparts : n.isScript = true ∨ n.parts = []
  · exact Node.keepsLines_of_no_parts hparts
  · obtain ⟨hscript, hne⟩ := not_or.mp hparts
    obtain ⟨p, q, hlaid⟩ := parse_laid h n hn (Bool.eq_false_iff.mpr hscript) hne
    exact (Input.ofSource_lines ..).keepsLines hlaid

/-- After the first name a line ends, so that the operator after it belongs to the second. -/
theorem parse_nodes_keep_lines_increment :
    let parsed := parse "i\n++j" .default
    let statement : Node := .expressionStatement ⟨0, 1⟩ (.identifier ⟨0, 1⟩ "i") none
    parsed.diagnostics = #[] ∧ statement ∈ parsed.script.toNode.preorder ∧
      EndsAfter "i\n++j" (tokenize "i\n++j" true).tokens 1 1 none := by
  intro parsed statement
  have hclean : parsed.diagnostics = #[] := rfl
  let second : Node :=
    .expressionStatement ⟨2, 5⟩ (.unary ⟨2, 5⟩ .plusPlus 2 (.identifier ⟨4, 5⟩ "j")) none
  have hscript : parsed.script.toNode = .script ⟨0, 5⟩ [statement, second] [] := rfl
  have hmem : statement ∈ parsed.script.toNode.preorder := by
    rw [hscript]
    exact Node.mem_preorder_of_mem_children (c := statement) (by simp [Node.children])
      statement.mem_preorder_self
  exact ⟨hclean, hmem, parse_nodes_keep_lines hclean statement hmem⟩

/-! What is thrown. -/

/-- Where nothing is reported, what a `throw` throws begins with the next significant token, whether
or not that begins a line. -/
theorem parse_throw_takes_next [Alphabet] {source : String} {options : ParseOptions}
    (h : (parse source options).diagnostics = #[]) {r : Range} {word : Keyword} {exception : Node}
    {semicolon : Option Nat} (hn : .throwStatement r word exception semicolon ∈
      (parse source options).script.toNode.preorder) :
    (∀ s, exception ≠ .emptyExpression s) ∧
      ∃ t : Token, t.ComesNext (tokenize source options.xmlLiterals).tokens word.range.stop
          exception.range.start ∧
        Range.Breaks source ⟨word.range.stop, exception.range.start⟩ t.lineBreakBefore := by
  have lines := Input.ofSource_lines source options.xmlLiterals
  obtain ⟨p, q, _, _, hparts⟩ := parse_laid h _ hn rfl nofun
  have hfull := hparts.ne_emptyExpression rfl
  obtain ⟨hstop, hstart, hlt⟩ := hparts.second lines.toCuts rfl hfull
  obtain ⟨t, hnext, _, hline⟩ := lines.comesNext hlt
  refine ⟨hfull exception (List.mem_cons_of_mem _ List.mem_cons_self), t, ?_, ?_⟩
  · rw [← hstop, ← hstart] at hnext
    exact hnext
  · rw [hline]
    exact lines.breaks_second hparts rfl hfull

def brokenThrow : Node :=
  .throwStatement ⟨0, 7⟩ ⟨⟨0, 5⟩, .throwKeyword⟩ (.identifier ⟨6, 7⟩ "x") none

theorem brokenThrow_mem_preorder :
    brokenThrow ∈ (parse "throw\nx" .default).script.toNode.preorder := by
  have hscript : (parse "throw\nx" .default).script.toNode = .script ⟨0, 7⟩ [brokenThrow] [] := rfl
  rw [hscript]
  exact Node.mem_preorder_of_mem_children (c := brokenThrow) (by simp [Node.children])
    brokenThrow.mem_preorder_self

/-- The next token is on the next line. -/
theorem parse_throw_takes_next_line :
    (parse "throw\nx" .default).diagnostics = #[] ∧
      brokenThrow ∈ (parse "throw\nx" .default).script.toNode.preorder ∧
      ∃ t : Token, t.ComesNext (tokenize "throw\nx" true).tokens 5 6 ∧
        Range.Breaks "throw\nx" ⟨5, 6⟩ t.lineBreakBefore := by
  have hclean : (parse "throw\nx" .default).diagnostics = #[] := rfl
  exact ⟨hclean, brokenThrow_mem_preorder,
    (parse_throw_takes_next hclean brokenThrow_mem_preorder).2⟩

/-- So a line may end between the word and what is thrown. -/
theorem parse_throw_across_lines :
    (parse "throw\nx" .default).diagnostics = #[] ∧
      ∃ (r : Range) (word : Keyword) (exception : Node) (semicolon : Option Nat),
        .throwStatement r word exception semicolon ∈
            (parse "throw\nx" .default).script.toNode.preorder ∧
          Range.Breaks "throw\nx" ⟨word.range.stop, exception.range.start⟩ true ∧
          ¬Range.Breaks "throw\nx" ⟨word.range.stop, exception.range.start⟩ false := by
  have hclean : (parse "throw\nx" .default).diagnostics = #[] := rfl
  have hbreaks : Range.Breaks "throw\nx" ⟨5, 6⟩ true :=
    ⟨"\n", ⟨⟨"throw", "x", rfl, rfl⟩, rfl⟩, rfl⟩
  refine ⟨hclean, _, _, _, _, brokenThrow_mem_preorder, hbreaks, fun hfalse => ?_⟩
  exact Bool.noConfusion (hbreaks.unique hfalse)

end ScriptTree
