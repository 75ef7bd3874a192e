import Mathlib.Data.List.Chain
import ScriptTree.Proofs.ProgramWritten

/-!
Ranges in a script. Nodes that are written with consecutive tokens stand one after the other, each
between the tokens around it. So the range of a node covers those of the nodes inside it, and only
the comments of a script may overlap with their neighbours.
-/
namespace ScriptTree

/-- The range of `n` covers those of the nodes inside it, and these come one after the other. -/
structure Node.Nests (n : Node) : Prop where
  start_le_stop : n.range.start ≤ n.range.stop
  covers_children : ∀ c ∈ n.children, n.range.covers c.range = true
  in_turn : (n.children.filter (·.kind ≠ .comment)).IsChain
    fun c d => c.range.stop ≤ d.range.start

theorem Node.exists_comment_of_kind {n : Node} (h : n.kind = .comment) : ∃ c, n = .comment c := by
  cases n with
  | comment c => exact ⟨c, rfl⟩
  | literal _ literalKind => cases literalKind <;> cases h
  | forInStatement =>
    rw [kind] at h
    split at h <;> cases h
  | jumpStatement =>
    rw [kind] at h
    split at h <;> cases h
  | keywordOperation =>
    rw [kind] at h
    split at h <;> cases h
  | _ => cases h

theorem Node.kind_ne_comment_of_isWord {n : Node} (h : n.isWord = true) : n.kind ≠ .comment := by
  intro hkind
  obtain ⟨c, rfl⟩ := exists_comment_of_kind hkind
  cases h

/-- Nodes that lie from `low` to `high`, one after the other, none of which is a comment. -/
structure Row (low high : Nat) (ns : List Node) : Prop where
  low_le : ∀ n ∈ ns, low ≤ n.range.start
  le_high : ∀ n ∈ ns, n.range.stop ≤ high
  apart : ns.Pairwise fun c d => c.range.stop ≤ d.range.start
  kind_ne : ∀ n ∈ ns, n.kind ≠ .comment
  nests : ∀ n ∈ ns, ∀ d ∈ n.preorder, d.Nests

namespace Row
variable {low mid high : Nat} {n : Node} {ns : List Node}

theorem nil (low high : Nat) : Row low high [] := by
  constructor <;> simp

theorem mono (h : Row mid high ns) (hlow : low ≤ mid) : Row low high ns :=
  { h with low_le := fun n hn => Nat.le_trans hlow (h.low_le n hn) }

/-- A node in front of others that begin where it has ended. -/
theorem cons (h : Row mid high ns) (hlow : low ≤ n.range.start) (hmid : n.range.stop ≤ mid)
    (hhigh : n.range.stop ≤ high) (hkind : n.kind ≠ .comment)
    (hnests : ∀ d ∈ n.preorder, d.Nests) : Row low high (n :: ns) where
  low_le := by
    have hle := (hnests n (by rw [Node.preorder_eq]; exact List.mem_cons_self)).start_le_stop
    intro c hc
    rcases List.mem_cons.mp hc with rfl | hc
    · exact hlow
    · have := h.low_le c hc
      omega
  le_high := by
    intro c hc
    rcases List.mem_cons.mp hc with rfl | hc
    · exact hhigh
    · exact h.le_high c hc
  apart := by
    refine List.pairwise_cons.mpr ⟨fun c hc => ?_, h.apart⟩
    exact Nat.le_trans hmid (h.low_le c hc)
  kind_ne := by
    intro c hc
    rcases List.mem_cons.mp hc with rfl | hc
    · exact hkind
    · exact h.kind_ne c hc
  nests := by
    intro c hc
    rcases List.mem_cons.mp hc with rfl | hc
    · exact hnests
    · exact h.nests c hc

/-- A node nests if the nodes inside it lie in its range, one after the other. -/
theorem nests_preorder (h : Row n.range.start n.range.stop n.children)
    (hle : n.range.start ≤ n.range.stop) : ∀ d ∈ n.preorder, d.Nests := by
  have hkinds : n.children.filter (·.kind ≠ .comment) = n.children := by
    apply List.filter_eq_self.mpr
    intro c hc
    exact decide_eq_true (h.kind_ne c hc)
  intro d hd
  rw [Node.preorder_eq] at hd
  rcases List.mem_cons.mp hd with rfl | hd
  · refine ⟨hle, fun c hc => decide_eq_true ⟨h.low_le c hc, h.le_high c hc⟩, ?_⟩
    rw [hkinds]
    exact h.apart.isChain
  · obtain ⟨c, hc, hd⟩ := List.mem_flatMap.mp hd
    exact h.nests c hc d hd

theorem nests_of_no_children (hchildren : n.children = []) (hle : n.range.start ≤ n.range.stop) :
    ∀ d ∈ n.preorder, d.Nests := by
  refine nests_preorder ?_ hle
  rw [hchildren]
  exact nil _ _

end Row

section
variable {input : Input} {tokens : Array Token} {leeway : Leeway} {p q m : Nat} {n : Node}
  {parts : List Part}

theorem nests_emptyAt (pos : Nat) : ∀ d ∈ (Node.emptyAt pos).preorder, d.Nests :=
  Row.nests_of_no_children rfl (Nat.le_refl pos)

theorem nests_word (hword : n.isWord = true) (hrange : n.range = input.rangeAt tokens p) :
    ∀ d ∈ n.preorder, d.Nests := by
  apply Row.nests_of_no_children (Node.children_of_isWord hword)
  rw [hrange]
  exact Nat.le_add_right _ _

/-- Only comments are of their kind, and they are not written with significant tokens. -/
theorem Input.Spans.kind_ne_comment (hspans : input.Spans tokens p m n.range)
    (hparts : SpellsWith input tokens leeway p m n.parts) : n.kind ≠ .comment := by
  intro hkind
  obtain ⟨c, rfl⟩ := Node.exists_comment_of_kind hkind
  cases hparts
  exact Nat.lt_irrefl _ hspans.lt

/-- A node that goes from one token to another, in front of nodes after them. -/
theorem Input.Spans.row_cons {ns : List Node} (cuts : input.Cuts tokens)
    (hspans : input.Spans tokens p m n.range) (hmq : m ≤ q) (hq : q ≤ input.significant.size)
    (hkind : n.kind ≠ .comment) (hnests : ∀ d ∈ n.preorder, d.Nests)
    (hns : Row (input.startAt tokens m) (input.stopAt tokens q) ns) :
    Row (input.startAt tokens p) (input.stopAt tokens q) (n :: ns) := by
  apply hns.cons (Nat.le_of_eq hspans.start_eq.symm) _ _ hkind hnests
  · rw [hspans.stop_eq]
    exact cuts.stopAt_le_startAt m
  · rw [hspans.stop_eq]
    exact cuts.stopAt_mono hq hmq

/-- Nodes among parts that are written with some tokens lie between the first and the last. -/
theorem SpellsWith.row (cuts : input.Cuts tokens) (h : SpellsWith input tokens leeway p q parts)
    (hq : q ≤ input.significant.size) :
    Row (input.startAt tokens p) (input.stopAt tokens q) (Part.nodes parts) := by
  induction h with
  | nil => exact .nil _ _
  | sign _ _ ih | filled _ _ _ _ _ ih => exact (ih hq).mono (cuts.startAt_mono (Nat.le_succ _))
  | unfilled _ _ ih => exact ih hq
  | word hsees hword _ hrange hrest ih =>
    have hspans := cuts.spans_rangeAt hsees.lt_size
    rw [← hrange] at hspans
    exact hspans.row_cons cuts hrest.le hq (Node.kind_ne_comment_of_isWord hword)
      (nests_word hword hrange) (ih hq)
  | inner _ hscript _ _ hspans hparts hrest ihparts ih =>
    -- The range goes from the first to the last of the tokens that the parts are written with.
    have hinside := ihparts hspans.le_size
    rw [Node.nodes_parts hscript, ← hspans.start_eq, ← hspans.stop_eq] at hinside
    have hle := cuts.startAt_lt_stopAt hspans.le_size hspans.lt
    rw [← hspans.start_eq, ← hspans.stop_eq] at hle
    exact hspans.row_cons cuts hrest.le hq (hspans.kind_ne_comment hparts)
      (hinside.nests_preorder (Nat.le_of_lt hle)) (ih hq)
  | hole hlt _ ih =>
    exact (ih hq).cons (Nat.le_refl _) (Nat.le_refl _)
      (Nat.le_of_lt (cuts.startAt_lt_stopAt hq hlt)) nofun (nests_emptyAt _)
  | @bare p word q _ hsees hword hrest ih =>
    have hrange : word.range = input.rangeAt tokens p := by rw [hword]
    have hend := cuts.stopAt_mono hq hrest.le
    have hempty := (ih hq).cons (n := .emptyAt (input.stopAt tokens (p + 1))) (Nat.le_refl _)
      (cuts.stopAt_le_startAt (p + 1)) hend nofun (nests_emptyAt _)
    have hspans := cuts.spans_rangeAt hsees.lt_size
    rw [← hrange] at hspans
    refine hempty.cons (n := .keyword word) (Nat.le_of_eq hspans.start_eq.symm)
      (Nat.le_of_eq hspans.stop_eq) ?_ nofun (nests_word rfl hrange)
    exact Nat.le_trans (Nat.le_of_eq hspans.stop_eq) hend

end

/-- Without the comments, what is inside a script is its statements in their order. -/
theorem filter_merge_comments (comments : List Comment) (statements : List Node)
    (h : ∀ n ∈ statements, n.kind ≠ .comment) :
    ((comments.map Node.comment).merge statements Node.startsNoLater).filter
      (·.kind ≠ .comment) = statements := by
  have hstatements : ∀ ns : List Node, (∀ n ∈ ns, n.kind ≠ .comment) →
      ns.filter (·.kind ≠ .comment) = ns := fun ns hns =>
    List.filter_eq_self.mpr fun n hn => decide_eq_true (hns n hn)
  induction comments generalizing statements with
  | nil =>
    rw [List.map_nil, List.nil_merge]
    exact hstatements _ h
  | cons c comments ihc =>
    induction statements with
    | nil => simp [Node.kind]
    | cons n statements ihs =>
      have hn := h n List.mem_cons_self
      rw [List.map_cons, List.cons_merge_cons]
      split
      · rw [List.filter_cons_of_neg (by simp [Node.kind])]
        exact ihc (n :: statements) h
      · rw [List.filter_cons_of_pos (by simpa using hn)]
        exact congrArg (n :: ·) (ihs fun d hd => h d (List.mem_cons_of_mem _ hd))

/-- A comment lies inside its source, and its range is not reversed. -/
theorem range_of_mem_comments {tokens : Array Token} {c : Comment}
    (h : c ∈ TokenTable.comments (.ofTokens tokens)) :
    c.range.start ≤ c.range.stop ∧ c.range.stop ≤ (Offsets.ofTokens tokens).sourceLength := by
  obtain ⟨⟨t, i⟩, hmem, hc⟩ := List.mem_filterMap.mp h
  obtain ⟨style, _, rfl⟩ := Option.map_eq_some_iff.mp hc
  have ht : tokens[i]? = some t := by
    have := List.mem_zipIdx_iff_getElem?.mp hmem
    simpa using this
  refine ⟨Nat.le_add_right _ _, ?_⟩
  have hle := TokenTable.offset_le_length tokens (i + 1)
  rwa [TokenTable.offset_succ ht] at hle

/-- The range of a script that is written with the tokens of its source covers them all. -/
theorem WrittenScript.nests [Alphabet] {source : String} {xmlLiterals : Bool} {script : Script}
    (h : WrittenScript source xmlLiterals script) : script.toNode.Nests ∧
      ∀ c ∈ script.toNode.children, ∀ d ∈ c.preorder, d.Nests := by
  have hrow := h.spells.row (Input.ofSource_cuts source xmlLiterals) (Nat.le_refl _)
  rw [Part.nodes_map_node] at hrow
  have hstart : script.toNode.range.start = 0 := congrArg Range.start h.range_eq
  have hstop : script.toNode.range.stop =
      (Offsets.ofTokens (tokenize source xmlLiterals).tokens).sourceLength := by
    rw [Script.toNode, Node.range, h.range_eq]
  have hcomments : ∀ c ∈ script.comments, c.range.start ≤ c.range.stop ∧
      c.range.stop ≤ script.toNode.range.stop := by
    intro c hc
    rw [h.comments_eq] at hc
    rw [hstop]
    exact range_of_mem_comments hc
  have hchildren : ∀ c ∈ script.toNode.children,
      (∃ comment ∈ script.comments, c = .comment comment) ∨ c ∈ script.statements := by
    intro c hc
    rcases List.mem_merge.mp hc with hc | hc
    · obtain ⟨comment, hmem, rfl⟩ := List.mem_map.mp hc
      exact .inl ⟨comment, hmem, rfl⟩
    · exact .inr hc
  constructor
  · refine ⟨?_, fun c hc => decide_eq_true ?_, ?_⟩
    · rw [hstart]
      exact Nat.zero_le _
    · refine ⟨by rw [hstart]; exact Nat.zero_le _, ?_⟩
      rcases hchildren c hc with ⟨comment, hmem, rfl⟩ | hc
      · exact (hcomments comment hmem).2
      · refine Nat.le_trans (hrow.le_high c hc) ?_
        rw [hstop]
        exact TokenTable.offset_le_length _ _
    · rw [Script.toNode, Node.children, filter_merge_comments _ _ hrow.kind_ne]
      exact hrow.apart.isChain
  · intro c hc
    rcases hchildren c hc with ⟨comment, hmem, rfl⟩ | hc
    · exact Row.nests_of_no_children rfl (hcomments comment hmem).1
    · exact hrow.nests c hc

/-- Where nothing is reported, the range of every node covers those of the nodes inside it, and
these come one after the other. -/
theorem parse_ranges_nest [Alphabet] {source : String} {options : ParseOptions}
    (h : (parse source options).diagnostics = #[]) :
    ∀ n ∈ (parse source options).script.toNode.preorder, n.Nests := by
  have hwritten := parse_writtenScript h
  intro n hn
  rw [Node.preorder_eq] at hn
  rcases List.mem_cons.mp hn with rfl | hn
  · exact hwritten.nests.1
  · obtain ⟨c, hc, hn⟩ := List.mem_flatMap.mp hn
    exact hwritten.nests.2 c hc n hn

/-- Also of nodes without text: the holes of an array and what a bare `yield` yields. -/
theorem parse_ranges_nest_holes :
    let parsed := parse "f = [, yield, /* none */ 2,];" .default
    parsed.diagnostics = #[] ∧ ∀ n ∈ parsed.script.toNode.preorder, n.Nests :=
  ⟨rfl, parse_ranges_nest rfl⟩

end ScriptTree
