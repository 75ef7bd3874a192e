import ScriptTree.Proofs.Locating
import ScriptTree.Proofs.NestedRanges
import ScriptTree.Proofs.RecoveredRanges

/-!
The innermost node under a query. The locator keeps the last node that goes over the query, in the
order of a walk. Where nothing is reported, a node stands inside those before it in that order or
begins after they have ended, and a comment comes after the statement in which it stands. So the
last node over a stretch of text lies inside all others. Over a cursor it does too, but for nodes
that meet at the cursor.
-/
namespace ScriptTree

/-- How node `d` may stand to a node `e` after it in a walk: it goes over `e` or ends before it. A
comment comes after all of its statement, also after nodes that begin where it has ended. -/
def Node.ComesBefore (d e : Node) : Prop :=
  d.range.covers e.range = true ∨ d.range.stop ≤ e.range.start ∨
    (e.kind = .comment ∧ e.range.stop ≤ d.range.start)

theorem Node.Nests.coversChildren {n : Node} (h : n.Nests) : n.CoversChildren := h.covers_children

/-! Nodes of statements. -/

namespace Row
variable {low high : Nat} {ns : List Node}

theorem covers (h : Row low high ns) :
    ∀ n ∈ ns, ∀ d ∈ n.preorder, n.range.covers d.range = true := fun n hn =>
  Node.covers_of_mem_preorder fun d hd => (h.nests n hn d hd).coversChildren

theorem ordered (h : Row low high ns) (hns : ∀ n ∈ ns, n.preorder.Pairwise Node.ComesBefore) :
    (ns.flatMap Node.preorder).Pairwise Node.ComesBefore := by
  refine List.pairwise_flatMap.mpr ⟨hns, h.apart.imp_of_mem fun hc hd hapart x hx y hy => ?_⟩
  have hx := h.covers _ hc x hx
  have hy := h.covers _ hd y hy
  simp only [Range.covers, decide_eq_true_eq] at hx hy
  exact .inr (.inl (by omega))

end Row

section
variable {input : Input} {tokens : Array Token} {leeway : Leeway} {p q : Nat} {n : Node}
  {parts : List Part}

theorem Node.ordered_of_no_children (h : n.children = []) :
    n.preorder.Pairwise Node.ComesBefore := by
  rw [Node.preorder_eq, h]
  exact List.pairwise_singleton _ _

/-- The nodes of what is written with some tokens come in order. -/
theorem SpellsWith.ordered (cuts : input.Cuts tokens)
    (h : SpellsWith input tokens leeway p q parts) (hq : q ≤ input.significant.size) :
    ∀ n ∈ Part.nodes parts, n.preorder.Pairwise Node.ComesBefore := by
  induction h with
  | nil => nofun
  | sign _ _ ih | filled _ _ _ _ _ ih | unfilled _ _ ih => exact ih hq
  | word _ hword _ _ _ ih =>
    refine List.forall_mem_cons.mpr ⟨?_, ih hq⟩
    exact Node.ordered_of_no_children (Node.children_of_isWord hword)
  | inner hword hscript hcomplete hlays hspans hparts hrest ihparts ih =>
    refine List.forall_mem_cons.mpr ⟨?_, ih hq⟩
    have hrow := (SpellsWith.inner hword hscript hcomplete hlays hspans hparts hrest).row cuts hq
    have hinside := hparts.row cuts hspans.le_size
    have hordered := ihparts hspans.le_size
    rw [Node.nodes_parts hscript] at hinside hordered
    rw [Node.preorder_eq]
    refine List.pairwise_cons.mpr ⟨fun d hd => .inl ?_, hinside.ordered hordered⟩
    apply hrow.covers _ List.mem_cons_self
    rw [Node.preorder_eq]
    exact List.mem_cons_of_mem _ hd
  | hole _ _ ih =>
    exact List.forall_mem_cons.mpr ⟨Node.ordered_of_no_children rfl, ih hq⟩
  | bare _ _ _ ih =>
    refine List.forall_mem_cons.mpr ⟨Node.ordered_of_no_children rfl, ?_⟩
    exact List.forall_mem_cons.mpr ⟨Node.ordered_of_no_children rfl, ih hq⟩

/-- Nodes that may not be left out begin with a token. -/
theorem SpellsWith.begins (h : SpellsWith input tokens leeway p q parts)
    (cuts : input.Cuts tokens) (hleeway : leeway = .nothing) : ∀ n ∈ Part.nodes parts,
      n.range.start < n.range.stop ∧ ∃ m < input.significant.size,
        n.range.start = input.startAt tokens m := by
  have of_spans {p m : Nat} {r : Range} (hspans : input.Spans tokens p m r) :
      r.start < r.stop ∧ ∃ m < input.significant.size, r.start = input.startAt tokens m := by
    refine ⟨?_, p, Nat.lt_of_lt_of_le hspans.lt hspans.le_size, hspans.start_eq⟩
    rw [hspans.start_eq, hspans.stop_eq]
    exact cuts.startAt_lt_stopAt hspans.le_size hspans.lt
  induction h with
  | nil => nofun
  | sign _ _ ih | filled _ _ _ _ _ ih | unfilled _ _ ih => exact ih hleeway
  | word hsees _ _ hrange _ ih =>
    refine List.forall_mem_cons.mpr ⟨?_, ih hleeway⟩
    rw [hrange]
    exact of_spans (cuts.spans_rangeAt hsees.lt_size)
  | inner _ _ _ _ hspans _ _ _ ih => exact List.forall_mem_cons.mpr ⟨of_spans hspans, ih hleeway⟩
  | hole | bare => cases hleeway

/-! Comments. -/

/-- A comment goes over a hidden token. -/
theorem hidden_of_mem_comments {c : Comment} (h : c ∈ TokenTable.comments (.ofTokens tokens)) :
    ∃ k t, tokens[k]? = some t ∧ t.isHidden = true ∧ c.range = Stretch.range tokens ⟨k, k + 1⟩ := by
  obtain ⟨⟨t, k⟩, hmem, hc⟩ := List.mem_filterMap.mp h
  obtain ⟨style, hstyle, rfl⟩ := Option.map_eq_some_iff.mp hc
  have ht : tokens[k]? = some t := by simpa using List.mem_zipIdx_iff_getElem?.mp hmem
  refine ⟨k, t, ht, ?_, ?_⟩
  · rw [Token.isHidden]
    cases hkind : t.kind <;> first | rfl | (rw [hkind] at hstyle; cases hstyle)
  · rw [Stretch.range, TokenTable.offset_succ ht]
    rfl

theorem comment_start_lt_stop (cuts : input.Cuts tokens) {c : Comment}
    (h : c ∈ TokenTable.comments (.ofTokens tokens)) : c.range.start < c.range.stop := by
  obtain ⟨k, t, ht, _, hrange⟩ := hidden_of_mem_comments h
  have hpos := cuts.length_pos t (Array.mem_of_getElem? ht)
  rw [hrange, Stretch.range, TokenTable.offset_succ ht]
  exact Nat.lt_add_of_pos_right hpos

theorem comments_apart (tokens : Array Token) :
    (TokenTable.comments (.ofTokens tokens)).Pairwise fun c d => c.range.stop ≤ d.range.start := by
  have hplaces : tokens.toList.zipIdx.Pairwise fun x y => x.2 < y.2 := by
    rw [List.pairwise_iff_getElem]
    intro i j _ _ hij
    simpa using hij
  refine List.pairwise_filterMap.mpr (hplaces.imp_of_mem fun {x y} hx _ hlt c hc d hd => ?_)
  obtain ⟨style, _, rfl⟩ := Option.map_eq_some_iff.mp hc
  obtain ⟨style', _, rfl⟩ := Option.map_eq_some_iff.mp hd
  have ht : tokens[x.2]? = some x.1 := by simpa using List.mem_zipIdx_iff_getElem?.mp hx
  show TokenTable.offset _ x.2 + x.1.length ≤ TokenTable.offset _ y.2
  rw [← TokenTable.offset_succ ht]
  exact TokenTable.offset_mono tokens hlt

/-! Statements and comments together. -/

/-- A node with text that goes over all nodes inside it, and these come in order. -/
structure Node.Solid (n : Node) : Prop where
  lt : n.range.start < n.range.stop
  covers : ∀ d ∈ n.preorder, n.range.covers d.range = true
  ordered : n.preorder.Pairwise ComesBefore

/-- Whichever of two nodes begins first, all that is inside it comes before what is in the other. -/
def Node.TakeTurns (a b : Node) : Prop :=
  (a.range.start ≤ b.range.start → ∀ x ∈ a.preorder, ∀ y ∈ b.preorder, x.ComesBefore y) ∧
    (b.range.start ≤ a.range.start → ∀ x ∈ b.preorder, ∀ y ∈ a.preorder, x.ComesBefore y)

theorem Node.TakeTurns.symm {a b : Node} (h : a.TakeTurns b) : b.TakeTurns a := ⟨h.2, h.1⟩

theorem Node.Solid.comesBefore {a b x y : Node} (ha : a.Solid) (hb : b.Solid)
    (h : a.range.stop ≤ b.range.start) (hx : x ∈ a.preorder) (hy : y ∈ b.preorder) :
    x.ComesBefore y := by
  have hx := ha.covers x hx
  have hy := hb.covers y hy
  simp only [Range.covers, decide_eq_true_eq] at hx hy
  exact .inr (.inl (by omega))

theorem Node.Solid.takeTurns {a b : Node} (ha : a.Solid) (hb : b.Solid)
    (h : a.range.stop ≤ b.range.start) : a.TakeTurns b := by
  refine ⟨fun _ x hx y hy => ha.comesBefore hb h hx hy, fun hle => ?_⟩
  have := ha.lt
  omega

theorem solid_comment (cuts : input.Cuts tokens) {c : Comment}
    (h : c ∈ TokenTable.comments (.ofTokens tokens)) : (Node.comment c).Solid where
  lt := comment_start_lt_stop cuts h
  covers := by
    rw [Node.preorder_eq]
    exact List.forall_mem_singleton.mpr (decide_eq_true ⟨Nat.le_refl _, Nat.le_refl _⟩)
  ordered := Node.ordered_of_no_children rfl

/-- A comment has no part in a node that begins with a token and not before the comment. -/
theorem comment_stop_le (cuts : input.Cuts tokens) {c : Comment}
    (hc : c ∈ TokenTable.comments (.ofTokens tokens)) {m : Nat}
    (hm : m < input.significant.size) (h : c.range.start ≤ input.startAt tokens m) :
    c.range.stop ≤ input.startAt tokens m := by
  obtain ⟨k, t, ht, hhidden, hrange⟩ := hidden_of_mem_comments hc
  obtain ⟨u, hu, _, hshown, _⟩ := cuts.token_of_sees (Input.sees_kindAt_of_lt hm)
  have hpos := cuts.length_pos u (Array.mem_of_getElem? hu)
  have hsucc := TokenTable.offset_succ hu
  rw [hrange] at h ⊢
  simp only [Stretch.range, Input.startAt] at h ⊢
  apply TokenTable.offset_mono tokens
  by_contra hle
  have hne : input.indexAt m ≠ k := by
    rintro rfl
    rw [hu] at ht
    cases ht
    rw [hshown] at hhidden
    cases hhidden
  have := TokenTable.offset_mono tokens (i := input.indexAt m + 1) (j := k) (by omega)
  omega

/-- A comment lies inside a node that begins and ends between tokens, or before it, or after it. -/
theorem comesBefore_comment {c : Comment} (hc : c ∈ TokenTable.comments (.ofTokens tokens))
    {d : Node} (hd : d.Keeps tokens) : d.ComesBefore (.comment c) := by
  obtain ⟨k, t, _, _, hrange⟩ := hidden_of_mem_comments hc
  obtain ⟨r, _, hseat⟩ := hd.seat
  have hcomment : (Node.comment c).range = Stretch.range tokens ⟨k, k + 1⟩ := hrange
  rw [Node.ComesBefore, hcomment, hseat]
  by_cases hstart : r.start ≤ k
  · by_cases hstop : k + 1 ≤ r.stop
    · exact .inl (decide_eq_true
        ⟨TokenTable.offset_mono tokens hstart, TokenTable.offset_mono tokens hstop⟩)
    · exact .inr (.inl (TokenTable.offset_mono tokens (Nat.le_of_not_lt hstop)))
  · exact .inr (.inr ⟨rfl, TokenTable.offset_mono tokens (Nat.lt_of_not_le hstart)⟩)

theorem takeTurns_comment (cuts : input.Cuts tokens) {c : Comment}
    (hc : c ∈ TokenTable.comments (.ofTokens tokens)) (hn : n.Solid) {m : Nat}
    (hm : m < input.significant.size) (hstart : n.range.start = input.startAt tokens m)
    (hkeeps : ∀ d ∈ n.preorder, d.Keeps tokens) : (Node.comment c).TakeTurns n := by
  constructor
  · intro hle x hx y hy
    rw [hstart] at hle
    refine (solid_comment cuts hc).comesBefore hn ?_ hx hy
    rw [hstart]
    exact comment_stop_le cuts hc hm hle
  · intro _ x hx y hy
    rw [Node.preorder_eq] at hy
    cases List.mem_singleton.mp hy
    exact comesBefore_comment hc (hkeeps x hx)

end

/-- The nodes in a script are sorted by their starts if its statements and its comments are. -/
theorem Node.children_sorted {r : Range} {statements : List Node} {comments : List Comment}
    (hstatements : statements.Pairwise fun a b => a.range.start ≤ b.range.start)
    (hcomments : comments.Pairwise fun c d => c.range.start ≤ d.range.start) :
    (Node.script r statements comments).children.Pairwise
      fun a b => a.range.start ≤ b.range.start := by
  have hmerge : (Node.script r statements comments).children.Pairwise
      fun a b => startsNoLater a b = true := by
    apply List.pairwise_merge
    · intro a b c hab hbc
      simp only [startsNoLater, decide_eq_true_eq] at hab hbc ⊢
      omega
    · intro a b
      simp only [startsNoLater, Bool.or_eq_true, decide_eq_true_eq]
      omega
    · exact List.pairwise_map.mpr (hcomments.imp fun h => decide_eq_true h)
    · exact hstatements.imp fun h => decide_eq_true h
  exact hmerge.imp fun h => of_decide_eq_true h

/-- Nodes that take turns come in order when they are sorted by their starts. -/
theorem Node.descendants_ordered {n : Node} (hsolid : ∀ c ∈ n.children, c.Solid)
    (hsorted : n.children.Pairwise fun a b => a.range.start ≤ b.range.start)
    (hturns : n.children.Pairwise TakeTurns) : n.descendants.Pairwise ComesBefore := by
  refine List.pairwise_flatMap.mpr ⟨fun c hc => (hsolid c hc).ordered, ?_⟩
  exact hsorted.imp₂ (fun _ _ hle hturn => hturn.1 hle) hturns

/-- Where nothing is reported, the nodes inside a script come in order. -/
theorem parse_descendants_ordered [Alphabet] {source : String} {options : ParseOptions}
    (h : (parse source options).diagnostics = #[]) :
    (parse source options).script.toNode.descendants.Pairwise Node.ComesBefore := by
  have cuts := Input.ofSource_cuts source options.xmlLiterals
  have hwritten := parse_writtenScript h
  have hkeeps := (parse_liesIn source options).keeps
  generalize (parse source options).script = script at hwritten hkeeps ⊢
  have hrow := hwritten.spells.row cuts (Nat.le_refl _)
  have hordered := hwritten.spells.ordered cuts (Nat.le_refl _)
  have hbegins := hwritten.spells.begins cuts rfl
  rw [Part.nodes_map_node] at hrow hordered hbegins
  have hcomments := hwritten.comments_eq ▸ comments_apart _
  have hcomment : ∀ c ∈ script.comments, c ∈ TokenTable.comments (.ofTokens
      (tokenize source options.xmlLiterals).tokens) := by
    rw [hwritten.comments_eq]
    exact fun _ => id
  have hstatement : ∀ n ∈ script.statements, n.Solid := fun n hn =>
    ⟨(hbegins n hn).1, hrow.covers n hn, hordered n hn⟩
  have hperm : script.toNode.children.Perm (script.comments.map .comment ++ script.statements) :=
    List.merge_perm_append _
  apply Node.descendants_ordered
  · intro n hn
    rcases List.mem_append.mp (hperm.mem_iff.mp hn) with hn | hn
    · obtain ⟨c, hc, rfl⟩ := List.mem_map.mp hn
      exact solid_comment cuts (hcomment c hc)
    · exact hstatement n hn
  · apply Node.children_sorted
    · refine hrow.apart.imp_of_mem fun ha _ hle => ?_
      exact Nat.le_trans (Nat.le_of_lt (hstatement _ ha).lt) hle
    · refine hcomments.imp_of_mem fun hc _ hle => ?_
      exact Nat.le_trans (Nat.le_of_lt (comment_start_lt_stop cuts (hcomment _ hc))) hle
  · refine (hperm.pairwise_iff Node.TakeTurns.symm).mpr (List.pairwise_append.mpr ⟨?_, ?_, ?_⟩)
    · refine List.pairwise_map.mpr (hcomments.imp_of_mem fun hc hd hle => ?_)
      exact (solid_comment cuts (hcomment _ hc)).takeTurns (solid_comment cuts (hcomment _ hd)) hle
    · refine hrow.apart.imp_of_mem fun ha hb hle => ?_
      exact (hstatement _ ha).takeTurns (hstatement _ hb) hle
    · intro a ha n hn
      obtain ⟨c, hc, rfl⟩ := List.mem_map.mp ha
      obtain ⟨_, m, hm, hstart⟩ := hbegins n hn
      refine takeTurns_comment cuts (hcomment c hc) (hstatement n hn) hm hstart fun d hd => ?_
      exact hkeeps d (Node.mem_preorder_of_mem_children
        (hperm.mem_iff.mpr (List.mem_append_right _ hn)) hd)

/-- What the locator finds in a script is picked from all nodes in it. -/
theorem parse_locate? [Alphabet] {source : String} {options : ParseOptions} {left right : Nat}
    (h : (parse source options).diagnostics = #[]) (hle : left ≤ right) :
    (parse source options).script.toNode.locate? left right =
      Node.pick? left right (parse source options).script.toNode.descendants := by
  have hnests := (parse_writtenScript h).nests.2
  have hbest := Node.best?_walkAll hle (parse source options).script.toNode.children
    (s := {}) (fun d hd => ?_) rfl
  · rw [Option.or_none] at hbest
    exact hbest
  · obtain ⟨c, hc, hd⟩ := List.mem_flatMap.mp hd
    exact (hnests c hc d hd).coversChildren

/-- Where nothing is reported, the locator finds the smallest node over a stretch of text: all
others over it, comments too, cover that node. It finds none only if there is none. -/
theorem locate?_innermost [Alphabet] {source : String} {options : ParseOptions} {left right : Nat}
    (h : (parse source options).diagnostics = #[]) (hlt : left < right) :
    let script := (parse source options).script.toNode
    (script.locate? left right = none ↔ ∀ d ∈ script.descendants, ¬d.Encloses left right) ∧
      ∀ n, script.locate? left right = some n →
        n ∈ script.descendants ∧ n.Encloses left right ∧
          ∀ d ∈ script.descendants, d.Encloses left right → d.range.covers n.range = true := by
  intro script
  have hordered : script.descendants.Pairwise Node.ComesBefore := parse_descendants_ordered h
  rw [parse_locate? h (Nat.le_of_lt hlt)]
  refine ⟨Node.pick?_eq_none_iff, fun n hn => ?_⟩
  obtain ⟨hmem, hstart, hstop⟩ := Node.mem_of_pick? hn
  refine ⟨hmem, ⟨hstart, hstop⟩, fun d hd hencloses => ?_⟩
  by_cases hmeant : n.IsMeant left right
  · obtain ⟨-, hrange⟩ | ⟨heq, -⟩ := hmeant
    · rw [hrange]
      exact decide_eq_true hencloses
    · exact absurd heq (Nat.ne_of_lt hlt)
  · obtain ⟨hstart', hstop'⟩ := hencloses
    rcases Node.pick?_related hordered hn hmeant hd ⟨hstart', hstop'⟩ with
      rfl | hcovers | hbefore | ⟨-, hafter⟩
    · exact decide_eq_true ⟨Nat.le_refl _, Nat.le_refl _⟩
    · exact hcovers
    -- Two nodes that do not overlap cannot both go over a stretch that has text.
    · omega
    · omega

/-- The comment stands in the call and comes after it in a walk. -/
theorem locate?_innermost_comment :
    let comment : Node := .comment ⟨⟨2, 9⟩, "/* a */", .multiLine⟩
    let parsed := parse "f(/* a */ 1);" .default
    parsed.diagnostics = #[] ∧ parsed.script.toNode.locate? 4 6 = some comment ∧
      ∀ d ∈ parsed.script.toNode.descendants, d.Encloses 4 6 →
        d.range.covers comment.range = true := by
  intro comment parsed
  let call : Node := .call ⟨0, 12⟩ (.identifier ⟨0, 1⟩ "f") (some 1)
    [.literal ⟨10, 11⟩ .decimal "1"] [] (some 11)
  have hscript : parsed.script.toNode = .script ⟨0, 13⟩
      [.expressionStatement ⟨0, 13⟩ call (some 12)] [⟨⟨2, 9⟩, "/* a */", .multiLine⟩] := rfl
  have hlocate : parsed.script.toNode.locate? 4 6 = some comment := by
    simp [hscript, call, comment, Node.locate?, Node.walkAll, Node.sight, Node.children,
      Node.startsNoLater, Node.answers, Node.range, Range.touches, Range.covers]
  have hclean : (parse "f(/* a */ 1);" .default).diagnostics = #[] := rfl
  have hfound := (locate?_innermost hclean (by decide : 4 < 6)).2 comment hlocate
  exact ⟨hclean, hlocate, hfound.2.2⟩

/-- A cursor at which there is no literal, name or `this`: of the nodes that go over it, the locator
finds the smallest, but for nodes that meet at the cursor. Of these it finds the one that begins
there, and if the other that ends there is a comment of the same statement, the comment. -/
theorem locate?_cursor [Alphabet] {source : String} {options : ParseOptions} {pos : Nat} {n : Node}
    (h : (parse source options).diagnostics = #[])
    (hleaf : ∀ d ∈ (parse source options).script.toNode.descendants,
      d.kind.isAtomicLeaf = true → ¬d.Encloses pos pos)
    (hn : (parse source options).script.toNode.locate? pos pos = some n) :
    n ∈ (parse source options).script.toNode.descendants ∧ n.Encloses pos pos ∧
      ∀ d ∈ (parse source options).script.toNode.descendants, d.Encloses pos pos →
        d.range.covers n.range = true ∨ (d.range.stop = pos ∧ n.range.start = pos) ∨
          (n.kind = .comment ∧ n.range.stop = pos ∧ d.range.start = pos) := by
  rw [parse_locate? h (Nat.le_refl pos)] at hn
  obtain ⟨hmem, hstart, hstop⟩ := Node.mem_of_pick? hn
  have hmeant : ¬n.IsMeant pos pos := by
    rintro (⟨hlt, -⟩ | ⟨-, hatomic, -⟩)
    · exact Nat.lt_irrefl _ hlt
    · exact hleaf n hmem hatomic ⟨hstart, hstop⟩
  refine ⟨hmem, ⟨hstart, hstop⟩, fun d hd ⟨hstart', hstop'⟩ => ?_⟩
  rcases Node.pick?_related (parse_descendants_ordered h) hn hmeant hd ⟨hstart', hstop'⟩ with
    rfl | hcovers | hbefore | ⟨hkind, hafter⟩
  · exact .inl (decide_eq_true ⟨Nat.le_refl _, Nat.le_refl _⟩)
  · exact .inl hcovers
  · exact .inr (.inl (by omega))
  · exact .inr (.inr ⟨hkind, by omega⟩)

/-! Two blocks that meet at a cursor. -/

def shortBlock : Node := .block ⟨0, 2⟩ (some 0) [] (some 1)

def longBlock : Node := .block ⟨2, 5⟩ (some 2) [] (some 4)

theorem toNode_of_blocks :
    (parse "{}{ }" .default).script.toNode = .script ⟨0, 5⟩ [shortBlock, longBlock] [] := rfl

theorem descendants_of_blocks :
    (parse "{}{ }" .default).script.toNode.descendants = [shortBlock, longBlock] := by
  simp [toNode_of_blocks, Node.descendants, Node.preorder_eq, Node.children, shortBlock, longBlock]

theorem locate?_of_blocks :
    (parse "{}{ }" .default).script.toNode.locate? 2 2 = some longBlock := by
  simp [toNode_of_blocks, Node.locate?, Node.walkAll, Node.sight, Node.children, shortBlock,
    longBlock, Node.answers, Node.kind, NodeKind.isAtomicLeaf, Node.range, Range.touches,
    Range.covers]

theorem no_leaf_of_blocks : ∀ d ∈ (parse "{}{ }" .default).script.toNode.descendants,
    d.kind.isAtomicLeaf = true → ¬d.Encloses 2 2 := by
  simp [descendants_of_blocks, shortBlock, longBlock, Node.kind, NodeKind.isAtomicLeaf]

/-- The first block ends where the second begins. -/
theorem locate?_cursor_blocks :
    let script := (parse "{}{ }" .default).script.toNode
    script.locate? 2 2 = some longBlock ∧ ∀ d ∈ script.descendants, d.Encloses 2 2 →
      d.range.covers longBlock.range = true ∨
        (d.range.stop = 2 ∧ longBlock.range.start = 2) ∨
        (longBlock.kind = .comment ∧ longBlock.range.stop = 2 ∧ d.range.start = 2) := by
  have hclean : (parse "{}{ }" .default).diagnostics = #[] := rfl
  exact ⟨locate?_of_blocks, (locate?_cursor hclean no_leaf_of_blocks locate?_of_blocks).2.2⟩

/-- So what is found at a cursor is not always the smallest node there. -/
theorem locate?_cursor_not_smallest :
    let parsed := parse "{}{ }" .default
    parsed.diagnostics = #[] ∧
      (∀ d ∈ parsed.script.toNode.descendants, d.kind.isAtomicLeaf = true → ¬d.Encloses 2 2) ∧
      ∃ n, parsed.script.toNode.locate? 2 2 = some n ∧
        ∃ d ∈ parsed.script.toNode.descendants, d.Encloses 2 2 ∧
          d.range.length < n.range.length := by
  refine ⟨rfl, no_leaf_of_blocks, longBlock, locate?_of_blocks, shortBlock, ?_, ?_⟩
  · rw [descendants_of_blocks]
    exact List.mem_cons_self
  · decide

end ScriptTree
