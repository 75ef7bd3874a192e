import ScriptTree.Proofs.ProgramWritten
import ScriptTree.Proofs.StatementNesting

/-!
Ranges in text with faults. Every node of a script begins and ends between tokens, and it covers
what is written in the nodes inside it. It does not always cover their ranges: a node for something
missing may stand outside of the node around it, with blank space or comments between the two.
-/
namespace ScriptTree
open Lowered

section
variable {input : Input} {tokens : Array Token}

/-- All tokens of a list. -/
def Stretch.whole (tokens : Array Token) : Stretch := ⟨0, tokens.size⟩

theorem Stretch.range_whole (tokens : Array Token) :
    (Stretch.whole tokens).range tokens = ⟨0, (Offsets.ofTokens tokens).sourceLength⟩ := by
  rw [range, whole, TokenTable.offset_ofTokens, TokenTable.offset_ofTokens,
    Offsets.sourceLength_ofTokens, ← Array.length_toList, List.take_length]
  rfl

theorem Input.Over.whole_takesIn (hover : input.Over tokens) (r : Stretch) :
    input.TakesIn (.whole tokens) r := by
  intro j hj
  have hlt := hover.indexAt_lt_count hj
  rw [hover.count_eq] at hlt
  exact ⟨.inl (Nat.zero_le _), .inl hlt⟩

/-- A comment goes over a token. -/
theorem liesIn_comment (cuts : input.Cuts tokens) {c : Comment}
    (h : c ∈ TokenTable.comments (.ofTokens tokens)) :
    LiesIn input tokens (.whole tokens) (.comment c) := by
  obtain ⟨⟨token, i⟩, hmem, hc⟩ := List.mem_filterMap.mp h
  obtain ⟨style, _, rfl⟩ := Option.map_eq_some_iff.mp hc
  have htoken : tokens[i]? = some token := by
    simpa using List.mem_zipIdx_iff_getElem?.mp hmem
  refine liesIn_seat cuts (s := ⟨i, i + 1⟩) (Nat.le_succ i) ?_ (cuts.whole_takesIn _) ?_ nofun
  · rw [Stretch.range, TokenTable.offset_succ htoken]
    rfl
  · refine ⟨?_, marked_nil⟩
    rintro _ ⟨⟩
    exact ⟨i, rfl, .inr ⟨token, htoken, rfl⟩⟩

/-- The script of a tree that the grammar has built. -/
theorem liesIn_script (cuts : input.Cuts tokens) {e limit : Nat} {tree : Concrete}
    {script : Script} (h : Derives input .statements 0 input.significant.size e tree.children)
    (hscript : Script.ofConcrete tokens limit (some tree) = .ok script) :
    LiesIn input tokens (.whole tokens) script.toNode := by
  obtain ⟨statements, hstatements, rfl⟩ := ofConcrete_eq_ok hscript
  refine liesIn_seat cuts (Nat.zero_le _) (Stretch.range_whole tokens).symm (.refl _)
    (Node.quotes_of_marked rfl marked_nil) ?_
  have hnests := Builder.within_nests cuts limit (2 * tree.height)
  have hall : Gives (fun ns => ∀ n ∈ ns, LiesIn input tokens (.whole tokens) n)
      (Lowering.statements (.ofTokens tokens) limit tree) := by
    refine gives_mapM fun t ht => ?_
    have hsnug := ((h.fits cuts.toOver (Nat.zero_le _)).2.2 t ht).snug
    exact hnests.statement t _ _ _ hsnug (cuts.whole_takesIn _) (Nat.le_refl _)
  intro c hc
  rcases List.mem_merge.mp hc with hc | hc
  · obtain ⟨comment, hcomment, rfl⟩ := List.mem_map.mp hc
    exact liesIn_comment cuts hcomment
  · exact hall statements hstatements c hc

end

/-- The script of a source is that of the tree that the grammar builds, or nothing is found. -/
theorem parse_script_cases [Alphabet] (source : String) (options : ParseOptions) :
    (parse source options).script =
        .empty (Offsets.ofTokens (tokenize source options.xmlLiterals).tokens).sourceLength ∨
      ∃ root c, Cursor.initial.program (.ofSource source options.xmlLiterals) = (.ok root, c) ∧
        Script.ofConcrete (tokenize source options.xmlLiterals).tokens options.maxDepth
          (some root) = .ok (parse source options).script := by
  obtain ⟨root, c, hread, hscript, _⟩ | ⟨error, _, hparse⟩ := parse_cases source options
  · exact .inr ⟨root, c, hread, hscript⟩
  · exact .inl (by rw [hparse])

/-- Every node of a script begins and ends between tokens and covers what is written inside it. -/
theorem parse_liesIn [Alphabet] (source : String) (options : ParseOptions) :
    LiesIn (.ofSource source options.xmlLiterals) (tokenize source options.xmlLiterals).tokens
      (.whole (tokenize source options.xmlLiterals).tokens)
      (parse source options).script.toNode := by
  have cuts := Input.ofSource_cuts source options.xmlLiterals
  rcases parse_script_cases source options with hempty | ⟨root, c, hread, hscript⟩
  · rw [hempty]
    refine liesIn_seat cuts (Nat.zero_le _) (Stretch.range_whole _).symm (.refl _)
      (Node.quotes_of_marked rfl marked_nil) ?_
    intro n hn
    rcases List.mem_merge.mp hn with hn | hn <;> cases hn
  · obtain ⟨ts, rfl, hts⟩ := program_derives hread
    exact liesIn_script cuts hts hscript

/-- The range of every node covers what is written in the nodes inside it, in text with faults
too. -/
theorem parse_ranges_cover_written [Alphabet] (source : String) (options : ParseOptions) :
    ∀ n ∈ (parse source options).script.toNode.preorder, ∀ c ∈ n.children,
      n.range.CoversWritten (tokenize source options.xmlLiterals).tokens c.range :=
  fun n hn => ((parse_liesIn source options).keeps n hn).covers

/-! A member without a name. Its name stands after the last token that was read, but the member
begins with the next one. -/

def missingName : Node := .identifier ⟨2, 2⟩ ""

def namelessMember : Node :=
  .propertyInitializer ⟨3, 5⟩ missingName (some 3) (.literal ⟨4, 5⟩ .decimal "1")

theorem mem_preorder_of_namelessMember {n : Node} (h : n ∈ namelessMember.preorder) :
    n ∈ (parse "({ :1})" .default).script.toNode.preorder := by
  let object : Node := .object ⟨1, 6⟩ 1 [namelessMember] [] (some 5) false
  let statement : Node :=
    .expressionStatement ⟨0, 7⟩ (.parenthesized ⟨0, 7⟩ 0 object (some 6)) none
  have hscript : (parse "({ :1})" .default).script.toNode = .script ⟨0, 7⟩ [statement] [] := rfl
  rw [hscript]
  apply Node.mem_preorder_of_mem_children (c := statement) (by simp [Node.children])
  apply Node.mem_preorder_of_mem_children List.mem_cons_self
  apply Node.mem_preorder_of_mem_children List.mem_cons_self
  exact Node.mem_preorder_of_mem_children List.mem_cons_self h

theorem namelessMember_mem_preorder :
    namelessMember ∈ (parse "({ :1})" .default).script.toNode.preorder :=
  mem_preorder_of_namelessMember namelessMember.mem_preorder_self

/-- Between the name and the member there is nothing but a blank. -/
theorem parse_ranges_cover_written_name :
    namelessMember ∈ (parse "({ :1})" .default).script.toNode.preorder ∧
      missingName ∈ namelessMember.children ∧
      namelessMember.range.CoversWritten (tokenize "({ :1})" true).tokens missingName.range :=
  ⟨namelessMember_mem_preorder, List.mem_cons_self, parse_ranges_cover_written "({ :1})" .default
    namelessMember namelessMember_mem_preorder missingName List.mem_cons_self⟩

/-- So the range of a node does not always cover those of the nodes inside it. -/
theorem parse_range_not_covering_name :
    let parsed := parse "({ :1})" .default
    parsed.diagnostics ≠ #[] ∧ ∃ n ∈ parsed.script.toNode.preorder, ∃ c ∈ n.children,
      n.range.covers c.range = false :=
  ⟨nofun, namelessMember, namelessMember_mem_preorder, missingName, List.mem_cons_self, rfl⟩

end ScriptTree
