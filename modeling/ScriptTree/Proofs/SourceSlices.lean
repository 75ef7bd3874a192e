import ScriptTree.Proofs.RecoveredRanges
import ScriptTree.Proofs.TokenAccount
import ScriptTree.Proofs.TokenPlaces

/-!
Nodes and the text they come from, with faults in it or not. The range of a node cuts the text
between tokens, so that it can be taken out of the text; and what a node keeps of the text stands
there: its own text in its range, and the marks of other tokens at the positions that it has kept.
-/
namespace ScriptTree

/-- Both ends of range `r` are places between tokens. -/
def Range.CutsTokens (tokens : Array Token) (r : Range) : Prop :=
  ∃ i j, i ≤ j ∧ j ≤ tokens.size ∧
    r = ⟨(Offsets.ofTokens tokens).get i, (Offsets.ofTokens tokens).get j⟩

/-- Tokens past the list start where it ends. -/
theorem Offsets.get_min_size (tokens : Array Token) (i : Nat) :
    (ofTokens tokens).get (min i tokens.size) = (ofTokens tokens).get i := by
  rw [get_ofTokens, get_ofTokens, ← Array.length_toList, ← List.take_eq_take_min]

/-- A stretch may reach past the list. -/
theorem Stretch.cutsTokens (tokens : Array Token) (s : Stretch) (h : s.start ≤ s.stop) :
    (s.range tokens).CutsTokens tokens := by
  refine ⟨min s.start tokens.size, min s.stop tokens.size, by omega, Nat.min_le_right _ _, ?_⟩
  rw [Offsets.get_min_size, Offsets.get_min_size]
  rfl

/-- What is between tokens is between characters. -/
theorem Faithful.slices {text : String} {tokens : Array Token} (h : Faithful text tokens)
    {s : Stretch} (hle : s.start ≤ s.stop) :
    (s.range tokens).start ≤ (s.range tokens).stop ∧ (s.range tokens).stop ≤ text.utf8ByteSize ∧
      IsBoundary text (s.range tokens).start ∧ IsBoundary text (s.range tokens).stop :=
  ⟨TokenTable.offset_mono tokens hle, (h.boundary s.stop).le_rawEndPos, h.boundary s.start,
    h.boundary s.stop⟩

/-- Ranges can be taken out of the text, also of one with faults: both ends of the range of a node
are places between tokens, the first no later than the second, and so places between characters. -/
theorem parse_ranges_sliceable [Alphabet] (source : String) (options : ParseOptions) :
    ∀ n ∈ (parse source options).script.toNode.preorder,
      n.range.CutsTokens (tokenize source options.xmlLiterals).tokens ∧
        n.range.start ≤ n.range.stop ∧ n.range.stop ≤ source.utf8ByteSize ∧
        IsBoundary source n.range.start ∧ IsBoundary source n.range.stop := by
  intro n hn
  obtain ⟨s, hle, hrange⟩ := ((parse_liesIn source options).keeps n hn).seat
  rw [hrange]
  exact ⟨s.cutsTokens _ hle, (tokenize_faithful source options.xmlLiterals).slices hle⟩

/-- A member without a name can be taken out as well. -/
theorem parse_ranges_sliceable_member :
    namelessMember ∈ (parse "({ :1})" .default).script.toNode.preorder ∧
      namelessMember.range.CutsTokens (tokenize "({ :1})" true).tokens ∧
      namelessMember.range.start ≤ namelessMember.range.stop ∧
      namelessMember.range.stop ≤ "({ :1})".utf8ByteSize ∧
      IsBoundary "({ :1})" namelessMember.range.start ∧
      IsBoundary "({ :1})" namelessMember.range.stop :=
  ⟨namelessMember_mem_preorder,
    parse_ranges_sliceable "({ :1})" .default namelessMember namelessMember_mem_preorder⟩

/-! Every position that a node has kept is among its marks. -/

namespace Part

/-- The positions among some parts. -/
def positions (parts : List Part) : List Nat := parts.filterMap position?

@[simp] theorem positions_nil : positions [] = [] := rfl

@[simp] theorem positions_node (n : Node) (rest : List Part) :
    positions (node n :: rest) = positions rest :=
  rfl

@[simp] theorem positions_sign (pos : Nat) (rest : List Part) :
    positions (sign pos :: rest) = pos :: positions rest :=
  rfl

@[simp] theorem positions_append (a b : List Part) :
    positions (a ++ b) = positions a ++ positions b :=
  List.filterMap_append

@[simp] theorem positions_sign? (pos : Option Nat) : positions (sign? pos) = pos.toList := by
  cases pos <;> rfl

@[simp] theorem positions_node? (n : Option Node) : positions (node? n) = [] := by
  cases n <;> rfl

@[simp] theorem positions_map_node (ns : List Node) : positions (ns.map node) = [] := by
  induction ns with
  | nil => rfl
  | cons n rest ih => exact ih

@[simp] theorem positions_map_sign (signs : List Nat) : positions (signs.map sign) = signs := by
  induction signs with
  | nil => rfl
  | cons pos rest ih => exact congrArg (pos :: ·) ih

@[simp] theorem positions_woven (ns : List Node) (commas : List Nat) :
    positions (woven ns commas) = commas := by
  induction ns generalizing commas with
  | nil => exact positions_map_sign commas
  | cons n rest ih => cases commas <;> simp [woven, ih]

@[simp] theorem positions_spareComma (items : List Node) (close : Option Nat) :
    positions (spareComma items close) = [] := by
  unfold spareComma
  split <;> rfl

@[simp] theorem positions_fragments (ns : List Node) : positions (fragments ns) = [] := by
  induction ns with
  | nil => rfl
  | cons f rest ih =>
    cases rest with
    | nil => rfl
    | cons g rest =>
      have hbraces :
          positions (closingBrace f g.range.start ++ openingBrace f.range.stop g) = [] := by
        unfold closingBrace openingBrace
        split <;> split <;> rfl
      rw [fragments, positions_node, positions_append, hbraces, ih, List.nil_append]

end Part

@[simp] theorem Mark.map_pos_of? (kind : Kind) (pos : Option Nat) :
    (Mark.of? kind pos).map Mark.pos = pos.toList := by
  cases pos <;> rfl

theorem Node.positions_eq_marks (n : Node) : n.positions = n.marks.map Mark.pos := by
  change Part.positions n.parts = n.marks.map Mark.pos
  cases n with
  | unary _ operator =>
    rw [parts]
    split <;> rfl
  | _ => simp [parts, marks, Function.comp_def]

/-! What is quoted from tokens stands in the text. -/

theorem IsBoundary.readsAt_empty {text : String} {pos : Nat} (h : IsBoundary text pos) :
    ReadsAt text pos "" := by
  obtain ⟨before, after, happend, hpos⟩ := String.Pos.Raw.isValid_iff_exists_append.mp h
  exact ⟨before, after, by simpa using happend, (congrArg String.Pos.Raw.byteIdx hpos).symm⟩

namespace Faithful
variable {source : String} {tokens : Array Token} (h : Faithful source tokens)
include h

theorem reads_of_quotes {r : Range} {text : String} (hquotes : r.Quotes tokens text) :
    r.Reads source text := by
  obtain ⟨i, rfl, rfl | ⟨t, ht, rfl⟩⟩ := hquotes
  · exact ⟨(h.boundary i).readsAt_empty, rfl⟩
  · exact ⟨h.readsAt ht, rfl⟩

theorem readsAt_of_stands {m : Mark} (hstands : m.Stands tokens) :
    Node.operatorText m.kind ≠ "" ∧ ReadsAt source m.pos (Node.operatorText m.kind) := by
  obtain ⟨i, t, ht, hpos, hspelled⟩ := hstands
  rw [Node.operatorText, hspelled, Option.getD_some, hpos]
  exact ⟨h.text_ne_empty t (Array.mem_of_getElem? ht), h.readsAt ht⟩

end Faithful

/-- Nodes quote the text that they come from, also where it has faults. The range of a node that
stands for one token reads as the text of the node, and at each position that a node has kept the
text reads as the token is spelled of which it is the mark. -/
theorem parse_nodes_quote_source [Alphabet] (source : String) (options : ParseOptions) :
    ∀ n ∈ (parse source options).script.toNode.preorder,
      (∀ text, n.text? = some text → n.range.Reads source text) ∧
        n.positions = n.marks.map Mark.pos ∧
        ∀ m ∈ n.marks, Node.operatorText m.kind ≠ "" ∧
          ReadsAt source m.pos (Node.operatorText m.kind) := by
  intro n hn
  have hquotes := ((parse_liesIn source options).keeps n hn).quotes
  have hfaithful := tokenize_faithful source options.xmlLiterals
  exact ⟨fun text htext => hfaithful.reads_of_quotes (hquotes.text text htext),
    n.positions_eq_marks, fun m hm => hfaithful.readsAt_of_stands (hquotes.marked m hm)⟩

/-- A name that is missing quotes nothing, and the colon after it stands where its member has kept
it. -/
theorem parse_nodes_quote_source_member :
    namelessMember ∈ (parse "({ :1})" .default).script.toNode.preorder ∧
      missingName ∈ (parse "({ :1})" .default).script.toNode.preorder ∧
      missingName.range.Reads "({ :1})" "" ∧ ReadsAt "({ :1})" 3 ":" := by
  have hmember := namelessMember_mem_preorder
  have hname : missingName ∈ (parse "({ :1})" .default).script.toNode.preorder :=
    mem_preorder_of_namelessMember
      (Node.mem_preorder_of_mem_children List.mem_cons_self missingName.mem_preorder_self)
  refine ⟨hmember, hname, ?_, ?_⟩
  · exact (parse_nodes_quote_source "({ :1})" .default missingName hname).1 "" rfl
  · exact ((parse_nodes_quote_source "({ :1})" .default namelessMember hmember).2.2
      ⟨.colon, 3⟩ List.mem_cons_self).2

end ScriptTree
