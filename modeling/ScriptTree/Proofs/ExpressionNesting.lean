import ScriptTree.Proofs.ExpressionWritten
import ScriptTree.Proofs.QuotedText

/-!
Where the nodes of expressions stand, in text with faults too. A tree takes in what is written in
the trees inside it, and so does the node that it is lowered to. A node for something missing may
stand outside of the node around it, but then only hidden tokens are between the two. What a node
keeps of its tokens is quoted from them.
-/
namespace ScriptTree
open Lowered

/-- Range `r` covers what is written in `s`: a significant token that does not lie in `r` does not
reach into `s` either, nor does it stand between the two. -/
def Range.CoversWritten (tokens : Array Token) (r s : Range) : Prop :=
  ∀ i token, tokens[i]? = some token → token.isHidden = false →
    (r.start ≤ TokenTable.offset (.ofTokens tokens) i ∨
      TokenTable.offset (.ofTokens tokens) (i + 1) ≤ s.start) ∧
    (TokenTable.offset (.ofTokens tokens) (i + 1) ≤ r.stop ∨
      s.stop ≤ TokenTable.offset (.ofTokens tokens) i)

/-- The range of a stretch of tokens. -/
def Stretch.range (tokens : Array Token) (r : Stretch) : Range :=
  ⟨TokenTable.offset (.ofTokens tokens) r.start, TokenTable.offset (.ofTokens tokens) r.stop⟩

theorem Stretch.between_offset (tokens : Array Token) {i j : Nat} (h : i ≤ j) :
    Range.between (TokenTable.offset (.ofTokens tokens) i)
      (TokenTable.offset (.ofTokens tokens) j) = Stretch.range tokens ⟨i, j⟩ := by
  rw [Range.between, Nat.max_eq_left (TokenTable.offset_mono tokens h)]
  rfl

theorem Input.TakesIn.coversWritten {input : Input} {tokens : Array Token} {r s : Stretch}
    (h : input.TakesIn r s) (hover : input.Over tokens) :
    (r.range tokens).CoversWritten tokens (s.range tokens) := by
  intro i token htoken hhidden
  obtain ⟨j, hj, rfl, _⟩ := hover.sees_of_token htoken hhidden
  obtain ⟨hleft, hright⟩ := h j hj
  exact ⟨hleft.imp (TokenTable.offset_mono tokens ·) (TokenTable.offset_mono tokens ·),
    hright.imp (TokenTable.offset_mono tokens ·) (TokenTable.offset_mono tokens ·)⟩

/-- Node `n` begins and ends between tokens, covers what is written in the nodes inside it and
quotes its own tokens. -/
structure Node.Keeps (tokens : Array Token) (n : Node) : Prop where
  seat : ∃ s : Stretch, s.start ≤ s.stop ∧ n.range = s.range tokens
  covers : ∀ c ∈ n.children, n.range.CoversWritten tokens c.range
  quotes : n.Quotes tokens

/-- Node `n` goes beyond stretch `r` over hidden tokens only, and what it consists of is covered and
quoted in turn. -/
structure LiesIn (input : Input) (tokens : Array Token) (r : Stretch) (n : Node) : Prop where
  seat : ∃ s : Stretch, s.start ≤ s.stop ∧ n.range = s.range tokens ∧ input.TakesIn r s
  keeps : ∀ m ∈ n.preorder, m.Keeps tokens

/-! Searches that succeed. -/

namespace Lowering
variable {input : Input} {tokens : Array Token} (hover : input.Over tokens) {k : Kind}
  {start bound i pos : Nat}
include hover

theorem sees_of_index? (hk : k.isHidden = false)
    (h : index? (.ofTokens tokens) k start bound = some i) :
    ∃ j, input.Sees j k ∧ i = input.indexAt j ∧ start ≤ i ∧ i < bound := by
  obtain ⟨hle, hlt, x, hx, hkind⟩ := index?_spec h
  obtain ⟨j, rfl, hsees⟩ := rank_of_kind hover hk hx hkind
  exact ⟨j, hsees, rfl, hle, hlt⟩

/-- An operator that is found is written between its operands. -/
theorem operatorPosition_spec (hk : k.isBinaryOperator = true)
    (h : operatorPosition (.ofTokens tokens) k start bound = .ok pos) :
    ∃ j, input.Sees j k ∧ start ≤ input.indexAt j ∧ input.indexAt j < bound ∧
      pos = input.startAt tokens j := by
  have htoken : k.operatorToken? = none := by
    cases k <;> first | rfl | cases hk
  have hhidden : k.isHidden = false := by
    cases k <;> first | rfl | cases hk
  rw [operatorPosition] at h
  split at h
  · rename_i i hi
    have hindex : index? (.ofTokens tokens) k start bound = some i := by
      rw [index?]
      split at hi
      · rename_i hlt
        rw [if_pos hlt]
        simpa [TokenTable.findOperator?, htoken] using hi
      · cases hi
    cases h
    obtain ⟨j, hsees, rfl, hle, hlt⟩ := sees_of_index? hover hhidden hindex
    exact ⟨j, hsees, hle, hlt, rfl⟩
  · cases h

end Lowering

namespace Lowered
variable {α β γ : Type} {P : α → Prop} {Q : β → Prop}

theorem Gives.mono {R : α → Prop} {x : Lowered α} (h : Gives P x) (himp : ∀ a, P a → R a) :
    Gives R x :=
  fun a ha => himp a (h a ha)

theorem gives_mapM {f : γ → Lowered α} {xs : List γ} (h : ∀ x ∈ xs, Gives P (f x)) :
    Gives (fun ys => ∀ y ∈ ys, P y) (xs.mapM f) := by
  induction xs with
  | nil => exact gives_ok nofun
  | cons x xs ih =>
    rw [List.mapM_cons]
    refine (h x List.mem_cons_self).bind fun y hy => ?_
    refine (ih fun z hz => h z (List.mem_cons_of_mem x hz)).bind fun ys hys => gives_ok ?_
    exact List.forall_mem_cons.mpr ⟨hy, hys⟩

theorem gives_option_mapM {f : γ → Lowered α} {x : Option γ} (h : ∀ c ∈ x, Gives P (f c)) :
    Gives (fun y => ∀ a ∈ y, P a) (x.mapM f) := by
  cases x with
  | none => exact gives_ok nofun
  | some c =>
    refine (h c rfl).bind fun a ha => gives_ok ?_
    rintro _ ⟨⟩
    exact ha

theorem gives_child {t : Concrete} {i : Nat} {what : String} :
    Gives (· ∈ t.children) (Lowering.child t i what) := by
  unfold Lowering.child
  split
  · rename_i u hu
    exact gives_ok (List.mem_of_getElem? hu)
  · exact gives_error

end Lowered

section
variable {input : Input} {tokens : Array Token} {r s : Stretch} {n : Node} {t u v : Concrete}
  {k : Kind} {a : Ancestry}

theorem LiesIn.mono (h : LiesIn input tokens s n) (hrs : input.TakesIn r s) :
    LiesIn input tokens r n := by
  obtain ⟨v, hle, hrange, hsv⟩ := h.seat
  exact ⟨⟨v, hle, hrange, hrs.trans hsv⟩, h.keeps⟩

theorem Input.Snug.takesIn (ht : input.Snug t) (hu : u ∈ t.children) :
    input.TakesIn t.stretch u.stretch :=
  ht.holds.takesIn u hu

theorem Input.Snug.start_lt (ht : input.Snug t) (hkind : t.kind = k)
    (hword : k.beginsWithWord = true) : t.start < t.after :=
  ht.holds.words.first (by rw [hkind, hword])

/-- The range of a tree goes over its tokens. -/
theorem Input.Snug.rangeOf_eq (ht : input.Snug t) :
    Lowering.rangeOf (.ofTokens tokens) t = t.stretch.range tokens :=
  Stretch.between_offset tokens ht.holds.start_le

variable (cuts : input.Cuts tokens)
include cuts

/-- A node that goes over stretch `s`, and in it the nodes inside. -/
theorem liesIn_seat (hle : s.start ≤ s.stop) (hrange : n.range = s.range tokens)
    (hrs : input.TakesIn r s) (hquotes : n.Quotes tokens)
    (hchildren : ∀ c ∈ n.children, LiesIn input tokens s c) : LiesIn input tokens r n := by
  refine ⟨⟨s, hle, hrange, hrs⟩, ?_⟩
  intro m hm
  rw [Node.preorder_eq] at hm
  rcases List.mem_cons.mp hm with rfl | hm
  · refine ⟨⟨s, hle, hrange⟩, fun c hc => ?_, hquotes⟩
    obtain ⟨v, _, hcrange, hsv⟩ := (hchildren c hc).seat
    rw [hrange, hcrange]
    exact hsv.coversWritten cuts.toOver
  · obtain ⟨d, hd, hm⟩ := List.mem_flatMap.mp hm
    exact (hchildren d hd).keeps m hm

/-- A node that goes over the same tokens as the only node inside it. -/
theorem LiesIn.around {c : Node} (h : LiesIn input tokens r c) (hrange : n.range = c.range)
    (hquotes : n.Quotes tokens) (hchildren : n.children = [c]) : LiesIn input tokens r n := by
  obtain ⟨s, hle, hcrange, hrs⟩ := h.seat
  refine liesIn_seat cuts hle (hrange.trans hcrange) hrs hquotes ?_
  rw [hchildren]
  exact List.forall_mem_singleton.mpr ⟨⟨s, hle, hcrange, .refl s⟩, h.keeps⟩

/-- The range of a leaf goes over its token. -/
theorem Input.Cuts.leafRange_leafAt {p : Nat} {tag : Kind} (hp : p < input.significant.size) :
    Lowering.leafRange (.ofTokens tokens) (input.leafAt p tag) =
      (input.leafAt p tag).stretch.range tokens := by
  have hafter : (input.leafAt p tag).after = input.afterAt (p + 1) := by
    rw [Concrete.after, leafAt, Concrete.lastToken?_leaf, afterAt_succ hp]
  have hstop := cuts.stopAt_succ hp
  rw [stopAt] at hstop
  rw [Stretch.range, Concrete.stretch, hafter, hstop]
  rfl

/-- A node with the range of its tree, which keeps no text. -/
theorem Input.Snug.liesIn (ht : input.Snug t)
    (hrange : n.range = Lowering.rangeOf (.ofTokens tokens) t) (htext : n.text? = none)
    (hmarked : Marked tokens n.marks)
    (hchildren : ∀ c ∈ n.children, LiesIn input tokens t.stretch c) :
    LiesIn input tokens t.stretch n :=
  liesIn_seat cuts ht.holds.start_le (hrange.trans ht.rangeOf_eq) (.refl _)
    (Node.quotes_of_marked htext hmarked) hchildren

/-- A word of its own. A leaf for something missing has no text. -/
theorem Input.Snug.liesIn_leaf (ht : input.Snug t) (hchildren : n.children = [])
    (hrange : n.range = Lowering.leafRange (.ofTokens tokens) t) (hmarks : n.marks = [])
    (htext : n.text? = some t.content) : LiesIn input tokens t.stretch n := by
  have hnone : ∀ s, ∀ c ∈ n.children, LiesIn input tokens s c := by
    rw [hchildren]
    exact fun _ => nofun
  have hquotes : n.Quotes tokens := by
    refine ⟨fun text hsome => ?_, hmarks ▸ marked_nil⟩
    obtain rfl : t.content = text := Option.some.inj (htext.symm.trans hsome)
    rw [hrange]
    exact ht.quotes cuts
  rcases ht.holds.text with htext | ⟨p, k, tag, hsees, _, rfl⟩
  · refine liesIn_seat cuts (s := ⟨t.start, t.start⟩) (Nat.le_refl _) ?_
      (.of_le (Nat.le_refl _) ht.holds.start_le) hquotes (hnone _)
    rw [hrange, Lowering.leafRange, Concrete.content, htext]
    rfl
  · exact liesIn_seat cuts ht.holds.start_le
      (hrange.trans (cuts.leafRange_leafAt hsees.lt_size)) (.refl _) hquotes (hnone _)

omit cuts in
/-- A word that is an operand by itself is the leaf of a token. -/
theorem Input.Snug.isLeaf (ht : input.Snug t) (hlone : t.kind.isLoneWord = true)
    (hstar : t.kind = .asterisk → t.children = []) : input.IsLeaf t := by
  refine ht.holds.text.resolve_left fun hnone => ?_
  obtain ⟨hkind, hchildren⟩ := ht.holds.words.lone hlone hnone
  exact hchildren (hstar hkind)

/-- The empty expression at the start of a tree. -/
theorem Input.Snug.liesIn_empty (ht : input.Snug t) :
    LiesIn input tokens t.stretch (.emptyAt (TokenTable.offset (.ofTokens tokens) t.start)) := by
  refine liesIn_seat cuts (s := ⟨t.start, t.start⟩) (Nat.le_refl _) rfl ?_
    (Node.quotes_of_marked rfl marked_nil) nofun
  exact .of_le (Nat.le_refl _) ht.holds.start_le

/-! Words. -/

theorem liesIn_keywordAt {i : Nat} {word : Keyword} {token : Token}
    (htoken : tokens[i]? = some token) (hk : token.kind.keywordText?.isSome = true)
    (h : Lowering.keywordAt? (.ofTokens tokens) i = some word) (hstart : r.start ≤ i)
    (hstop : i < r.stop) : LiesIn input tokens r (.keyword word) := by
  have hquotes := quotes_keywordAt? cuts htoken hk h
  rw [Lowering.keywordAt?, TokenTable.ofTokens_tokens, htoken, Option.map_some] at h
  cases h
  refine liesIn_seat cuts (s := ⟨i, i + 1⟩) (Nat.le_succ i) ?_ (.of_le hstart hstop) hquotes
    (List.forall_mem_nil _)
  rw [Stretch.range, TokenTable.offset_succ htoken]
  rfl

/-- The keyword that a tree begins with. -/
theorem gives_keyword (hlt : t.start < t.after) (hk : k.keywordText?.isSome = true) : Gives
    (fun word => LiesIn input tokens t.stretch (.keyword word))
    (Lowering.keyword (.ofTokens tokens) k t.start) := by
  unfold Lowering.keyword
  split
  · rename_i word hword
    obtain ⟨i, hi, hat⟩ := Option.bind_eq_some_iff.mp hword
    obtain ⟨hle, hbound, token, htoken, rfl⟩ := Lowering.index?_spec hi
    refine gives_ok (liesIn_keywordAt cuts htoken hk hat hle ?_)
    exact Nat.lt_of_le_of_lt (Nat.le_of_lt_succ hbound) hlt
  · exact gives_error

theorem liesIn_keyword? {start bound : Nat} {word : Keyword}
    (hk : k.keywordText?.isSome = true)
    (h : Lowering.keyword? (.ofTokens tokens) k start bound = some word)
    (hstart : ∀ j, j < input.significant.size → start ≤ input.indexAt j →
      r.start ≤ input.indexAt j)
    (hstop : ∀ j, j < input.significant.size → input.indexAt j < bound →
      input.indexAt j < r.stop) : LiesIn input tokens r (.keyword word) := by
  have hhidden : k.isHidden = false := by
    cases k <;> first | rfl | cases hk
  obtain ⟨i, hi, hat⟩ := Option.bind_eq_some_iff.mp h
  obtain ⟨j, hsees, rfl, hle, hlt⟩ := Lowering.sees_of_index? cuts.toOver hhidden hi
  obtain ⟨token, htoken, rfl, _, _⟩ := cuts.token_of_sees hsees
  exact liesIn_keywordAt cuts htoken hk hat (hstart j hsees.lt_size hle)
    (hstop j hsees.lt_size hlt)

omit cuts in
/-- What is written after a tree comes no earlier than a stretch that takes it in. -/
theorem Input.Snug.start_le_of_after (ht : input.Snug t) (h : input.TakesIn r t.stretch) (j : Nat)
    (hj : j < input.significant.size) (hle : t.after ≤ input.indexAt j) :
    r.start ≤ input.indexAt j := by
  have hstart := (h j hj).1
  have hself := ht.holds.start_le
  dsimp only [Concrete.stretch] at hstart
  omega

omit cuts in
theorem Input.Snug.lt_stop_of_start (ht : input.Snug t) (h : input.TakesIn r t.stretch) (j : Nat)
    (hj : j < input.significant.size) (hlt : input.indexAt j < t.start) :
    input.indexAt j < r.stop := by
  have hstop := (h j hj).2
  have hself := ht.holds.start_le
  dsimp only [Concrete.stretch] at hstop
  omega

/-- A keyword between two trees inside a tree. -/
theorem Input.Snug.liesIn_keyword? {word : Keyword} (ht : input.Snug t) (hu : u ∈ t.children)
    (hv : v ∈ t.children) (hk : k.keywordText?.isSome = true)
    (h : Lowering.keyword? (.ofTokens tokens) k u.after v.start = some word) :
    LiesIn input tokens t.stretch (.keyword word) :=
  ScriptTree.liesIn_keyword? cuts hk h ((ht.inside hu).start_le_of_after (ht.takesIn hu))
    ((ht.inside hv).lt_stop_of_start (ht.takesIn hv))

end

/-! Marks. -/

section
variable {input : Input} {tokens : Array Token} (cuts : input.Cuts tokens) {k : Kind}
  {start bound : Nat}
include cuts

theorem gives_position (hk : k.text?.isSome = true) :
    Gives (fun pos => (Mark.mk k pos).Stands tokens)
      (Lowering.position (.ofTokens tokens) k start bound) := by
  unfold Lowering.position
  split
  · rename_i pos hpos
    obtain ⟨i, hi, rfl⟩ := Option.map_eq_some_iff.mp hpos
    exact gives_ok (stands_of_index? cuts hk hi)
  · exact gives_error

theorem gives_operatorPosition (hk : (k.operatorToken?.getD k).text?.isSome = true) :
    Gives (fun pos => (Mark.mk (k.operatorToken?.getD k) pos).Stands tokens)
      (Lowering.operatorPosition (.ofTokens tokens) k start bound) :=
  fun _ h => stands_of_operatorPosition cuts hk h

theorem gives_commas (ts : List Concrete) :
    Gives (fun commas => Marked tokens (commas.map (Mark.mk .comma)))
      (Lowering.commas (.ofTokens tokens) ts) := by
  induction ts with
  | nil => exact gives_ok marked_nil
  | cons t ts ih =>
    cases ts with
    | nil => exact gives_ok marked_nil
    | cons u us =>
      refine (gives_position cuts rfl).bind fun first hfirst => ?_
      exact ih.bind fun commas hcommas => gives_ok (hfirst.cons hcommas)

end

/-- The nodes that a builder makes of trees lie in their tokens. A statement may go on to a
semicolon before its bound. -/
structure Builder.Nests (input : Input) (tokens : Array Token) (b : Builder) : Prop where
  expression : ∀ t a, input.Snug t → Gives (LiesIn input tokens t.stretch) (b.expression t a)
  statement : ∀ t a r bound, input.Snug t → input.TakesIn r t.stretch → bound ≤ r.stop →
    Gives (LiesIn input tokens r) (b.statement t a bound)

section
variable {input : Input} {tokens : Array Token} {b : Builder} {t u : Concrete} {a : Ancestry}

theorem Lowered.Gives.inside {x : Lowered Node} (h : Gives (LiesIn input tokens u.stretch) x)
    (ht : input.Snug t) (hu : u ∈ t.children) : Gives (LiesIn input tokens t.stretch) x :=
  h.mono fun _ hn => hn.mono (ht.takesIn hu)

namespace Builder.Nests
variable (hb : b.Nests input tokens) (ht : input.Snug t)
include hb ht

theorem part (hu : u ∈ t.children) : Gives (LiesIn input tokens t.stretch) (b.expression u a) :=
  (hb.expression u a (ht.inside hu)).inside ht hu

theorem part_of_part {v : Concrete} (hu : u ∈ t.children) (hv : v ∈ u.children) :
    Gives (LiesIn input tokens t.stretch) (b.expression v a) :=
  (hb.part (ht.inside hu) hv).inside ht hu

theorem body (hu : u ∈ t.children) :
    Gives (LiesIn input tokens t.stretch) (b.statement u a t.after) :=
  hb.statement u a t.stretch _ (ht.inside hu) (ht.takesIn hu) (Nat.le_refl _)

end Builder.Nests

variable (cuts : input.Cuts tokens) (ht : input.Snug t)
include cuts ht

theorem lies_identifier :
    Gives (LiesIn input tokens t.stretch) (Lowering.identifier (.ofTokens tokens) t a) := by
  unfold Lowering.identifier
  split
  · exact gives_ok (ht.liesIn_leaf cuts rfl rfl rfl rfl)
  · exact gives_error

theorem lies_identifier_of_mem (hu : u ∈ t.children) :
    Gives (LiesIn input tokens t.stretch) (Lowering.identifier (.ofTokens tokens) u a) :=
  (lies_identifier cuts (ht.inside hu)).inside ht hu

theorem lies_listed {item : Concrete → Lowered Node}
    (hitem : ∀ u, input.Snug u → Gives (LiesIn input tokens u.stretch) (item u)) :
    Gives (fun list => (∀ n ∈ list.items, LiesIn input tokens t.stretch n) ∧
        Marked tokens (Mark.of? .openParen list.openParen ++ list.commas.map (Mark.mk .comma) ++
          Mark.of? .closeParen list.closeParen))
      (Lowering.listed (.ofTokens tokens) t item) := by
  unfold Lowering.listed
  split
  · exact gives_error
  · refine (gives_mapM fun u hu => (hitem u (ht.inside hu)).inside ht hu).bind
      fun items hitems => ?_
    refine (gives_commas cuts t.children).bind fun commas hcommas => gives_ok ⟨hitems, ?_⟩
    exact ((marked_position? cuts rfl).append hcommas).append (marked_position? cuts rfl)

theorem lies_thisExpression (hkind : t.kind = .thisKeyword) :
    Gives (LiesIn input tokens t.stretch) (Lowering.thisExpression (.ofTokens tokens) t) := by
  unfold Lowering.thisExpression
  refine (gives_keyword cuts (ht.start_lt hkind rfl) rfl).bind fun word hword => gives_ok ?_
  have hleaf := ht.isLeaf (by rw [hkind]; rfl) (by rw [hkind]; nofun)
  have hquotes := hleaf.quotes cuts
  rw [hleaf.content_eq cuts "this" (by rw [hkind]; rfl)] at hquotes
  obtain ⟨p, k, tag, hsees, _, rfl⟩ := hleaf
  refine liesIn_seat cuts ht.holds.start_le (cuts.leafRange_leafAt hsees.lt_size) (.refl _) ?_
    (List.forall_mem_singleton.mpr hword)
  exact ⟨by rintro _ ⟨⟩; exact hquotes, marked_nil⟩

theorem lies_null (hkind : t.kind = .nullKeyword) : LiesIn input tokens t.stretch
    (.null (Lowering.leafRange (.ofTokens tokens) t)) := by
  have hleaf := ht.isLeaf (by rw [hkind]; rfl) (by rw [hkind]; nofun)
  refine ht.liesIn_leaf cuts rfl rfl rfl ?_
  rw [hleaf.content_eq cuts "null" (by rw [hkind]; rfl)]
  rfl

variable (hb : b.Nests input tokens)
include hb

theorem lies_block :
    Gives (LiesIn input tokens t.stretch) (Lowering.block (.ofTokens tokens) b t a) := by
  unfold Lowering.block
  split
  · exact gives_error
  · refine (gives_mapM fun u hu => hb.body ht hu).bind fun statements hstatements => gives_ok ?_
    exact ht.liesIn cuts rfl rfl
      ((marked_position? cuts rfl).append (marked_position? cuts rfl)) hstatements

theorem lies_block_of_mem (hu : u ∈ t.children) :
    Gives (LiesIn input tokens t.stretch) (Lowering.block (.ofTokens tokens) b u a) :=
  (lies_block cuts (ht.inside hu) hb).inside ht hu

theorem lies_function (hkind : t.kind = .functionKeyword) :
    Gives (LiesIn input tokens t.stretch) (Lowering.function (.ofTokens tokens) b t a) := by
  unfold Lowering.function
  refine (gives_keyword cuts (ht.start_lt hkind rfl) rfl).bind fun word hword => ?_
  split
  rename_i nameTree rest hparts
  obtain ⟨hnameTree, hrest⟩ :
      (∀ u ∈ nameTree, u ∈ t.children) ∧ ∀ u ∈ rest, u ∈ t.children := by
    split at hparts
    · rename_i first others hchildren
      rw [hchildren] at hparts ⊢
      split at hparts <;> cases hparts
      · exact ⟨by simp, fun u hu => List.mem_cons_of_mem first hu⟩
      · exact ⟨nofun, fun u hu => hu⟩
    · cases hparts
      exact ⟨nofun, nofun⟩
  dsimp only
  split
  · refine Gives.next rfl ?_
    have hparameters := hrest _ List.mem_cons_self
    have hbody := hrest _ (List.mem_cons_of_mem _ List.mem_cons_self)
    refine (gives_option_mapM fun u hu => lies_identifier_of_mem cuts ht (hnameTree u hu)).bind
      fun name hname => ?_
    refine (lies_listed cuts (ht.inside hparameters) fun u hu => lies_identifier cuts hu).bind
      fun list hlist => ?_
    refine (lies_block_of_mem cuts ht hb hbody).bind fun body hbody => gives_ok ?_
    refine ht.liesIn cuts rfl rfl hlist.2 ?_
    have hitems : ∀ n ∈ list.items, LiesIn input tokens t.stretch n :=
      fun n hn => (hlist.1 n hn).mono (ht.takesIn hparameters)
    simpa [Node.children, or_imp, forall_and] using ⟨hword, hname, hitems, hbody⟩
  · exact gives_error

theorem lies_declarator :
    Gives (LiesIn input tokens t.stretch) (Lowering.declarator (.ofTokens tokens) b t a) := by
  unfold Lowering.declarator
  split
  · refine (lies_identifier cuts ht).bind fun name hname => ?_
    exact gives_ok (hname.around cuts rfl (Node.quotes_of_marked rfl marked_nil) rfl)
  · refine gives_child.bind fun nameTree hnameTree => ?_
    refine gives_child.bind fun valueTree hvalueTree => ?_
    refine (lies_identifier_of_mem cuts ht hnameTree).bind fun name hname => ?_
    refine (hb.part ht hvalueTree).bind fun value hvalue => gives_ok ?_
    exact ht.liesIn cuts rfl rfl (marked_position? cuts rfl)
      (by simp [Node.children, hname, hvalue])
  · exact gives_error

/-! Expressions. -/

theorem lies_wrapped :
    Gives (LiesIn input tokens t.stretch) (Lowering.wrapped (.ofTokens tokens) b t a) := by
  unfold Lowering.wrapped
  split
  · exact gives_ok (ht.liesIn_empty cuts)
  · rename_i inside hchildren
    exact hb.part ht (by simp [hchildren])
  · exact gives_error

/-- A binary node goes from its left operand to its right one. The operator between them is written,
so that neither operand reaches beyond it. -/
theorem lies_binary (hkind : t.kind.isBinaryOperator = true) :
    Gives (LiesIn input tokens t.stretch) (Lowering.binary (.ofTokens tokens) b t a) := by
  unfold Lowering.binary
  refine gives_child.bind fun leftTree hleftTree => gives_child.bind fun rightTree hrightTree => ?_
  have hfound : Gives (fun position => ∃ j, input.Sees j t.kind ∧
      leftTree.after ≤ input.indexAt j ∧ input.indexAt j < rightTree.start ∧
      position = input.startAt tokens j)
      (Lowering.operatorPosition (.ofTokens tokens) t.kind leftTree.after rightTree.start) :=
    fun _ h => Lowering.operatorPosition_spec cuts.toOver hkind h
  have hspelled : t.kind.text?.isSome = true := by
    revert hkind
    generalize t.kind = k
    cases k <;> decide
  refine hfound.bind fun position hposition => ?_
  refine (hb.expression leftTree _ (ht.inside hleftTree)).bind fun left hleft => ?_
  refine (hb.expression rightTree _ (ht.inside hrightTree)).bind fun right hright => gives_ok ?_
  obtain ⟨j, hsees, hafter, hbefore, rfl⟩ := hposition
  obtain ⟨p, hp, hprange, hptakes⟩ := hleft.seat
  obtain ⟨q, hq, hqrange, hqtakes⟩ := hright.seat
  have hpj : p.stop ≤ input.indexAt j :=
    ((hptakes j hsees.lt_size).2.resolve_left (Nat.not_lt_of_le hafter))
  have hjq : input.indexAt j < q.start :=
    ((hqtakes j hsees.lt_size).1.resolve_left (Nat.not_le_of_lt hbefore))
  have hptree := (ht.takesIn hleftTree).trans hptakes
  have hqtree := (ht.takesIn hrightTree).trans hqtakes
  refine liesIn_seat cuts (s := ⟨p.start, q.stop⟩) (by dsimp only; omega) ?_ ?_
    (Node.quotes_of_marked rfl (stands_of_sees cuts hsees hspelled).only) ?_
  · rw [Node.range, hprange, hqrange]
    exact Stretch.between_offset tokens (by omega)
  · exact fun i hi => ⟨(hptree i hi).1, (hqtree i hi).2⟩
  · refine List.forall_mem_cons.mpr ⟨?_, List.forall_mem_singleton.mpr ?_⟩
    · exact ⟨⟨p, hp, hprange, .of_le (Nat.le_refl _) (by dsimp only; omega)⟩, hleft.keeps⟩
    · exact ⟨⟨q, hq, hqrange, .of_le (by dsimp only; omega) (Nat.le_refl _)⟩, hright.keeps⟩

theorem lies_asterisk (hkind : t.kind = .asterisk) : Gives (LiesIn input tokens t.stretch)
    (Lowering.asterisk (.ofTokens tokens) b t a (Lowering.binary (.ofTokens tokens) b t a)) := by
  unfold Lowering.asterisk
  split
  · rename_i hchildren
    have hleaf := ht.isLeaf (by rw [hkind]; rfl) fun _ => hchildren
    refine gives_ok (ht.liesIn_leaf cuts rfl rfl rfl ?_)
    rw [hleaf.content_eq cuts "*" (by rw [hkind]; rfl)]
    rfl
  · rename_i inside hchildren
    exact hb.part ht (by simp [hchildren])
  · exact lies_binary cuts ht hb (by rw [hkind]; rfl)

theorem lies_unary {trailing : Bool} {k : Kind} (hkind : t.kind = k)
    (hk : (k.operatorToken?.getD k).text?.isSome = true) : Gives (LiesIn input tokens t.stretch)
    (Lowering.unary (.ofTokens tokens) b t a trailing) := by
  unfold Lowering.unary
  refine gives_child.bind fun operandTree hoperandTree => ?_
  dsimp only
  split
  all_goals
    refine (gives_operatorPosition cuts (hkind ▸ hk)).bind fun position hposition => ?_
    refine (hb.part ht hoperandTree).bind fun operand hoperand => gives_ok ?_
    exact ht.liesIn cuts rfl rfl hposition.only (List.forall_mem_singleton.mpr hoperand)

/-- An operator that is a keyword. What a bare `yield` yields stands at the end of the keyword. -/
theorem lies_keywordOperation {k : Kind} (hkind : t.kind = k) (hfirst : k.beginsWithWord = true)
    (hk : k.keywordText?.isSome = true) : Gives (LiesIn input tokens t.stretch)
    (Lowering.keywordOperation (.ofTokens tokens) b t a) := by
  unfold Lowering.keywordOperation
  refine (gives_keyword cuts (ht.start_lt hkind hfirst) (hkind ▸ hk)).bind fun word hword => ?_
  have hnode {operand : Node} (hoperand : LiesIn input tokens t.stretch operand) :
      LiesIn input tokens t.stretch
        (.keywordOperation (Lowering.rangeOf (.ofTokens tokens) t) word operand) :=
    ht.liesIn cuts rfl rfl marked_nil (by simp [Node.children, hword, hoperand])
  dsimp only
  split
  · rename_i operandTree hoperandTree
    refine (hb.part ht (List.mem_of_getElem? hoperandTree)).bind fun operand hoperand => ?_
    exact gives_ok (hnode hoperand)
  · split
    · refine Gives.next rfl (gives_ok (hnode ?_))
      obtain ⟨s, hle, hrange, htakes⟩ := hword.seat
      refine liesIn_seat cuts (s := ⟨s.stop, s.stop⟩) (Nat.le_refl _) ?_ ?_
        (Node.quotes_of_marked rfl marked_nil) (List.forall_mem_nil _)
      · exact congrArg (fun r => Range.empty r.stop) hrange
      · intro i hi
        have := htakes i hi
        dsimp only at this ⊢
        omega
    · exact gives_error

theorem lies_newExpression (hkind : t.kind = .newKeyword) : Gives (LiesIn input tokens t.stretch)
    (Lowering.newExpression (.ofTokens tokens) b t a) := by
  unfold Lowering.newExpression
  refine (gives_keyword cuts (ht.start_lt hkind rfl) rfl).bind fun word hword => ?_
  refine gives_child.bind fun classTree hclassTree => ?_
  refine (hb.part ht hclassTree).bind fun objectClass hobjectClass => gives_ok ?_
  exact ht.liesIn cuts rfl rfl marked_nil (by simp [Node.children, hword, hobjectClass])

theorem lies_call :
    Gives (LiesIn input tokens t.stretch) (Lowering.call (.ofTokens tokens) b t a) := by
  unfold Lowering.call
  refine gives_child.bind fun calleeTree hcalleeTree => ?_
  refine gives_child.bind fun argumentsTree hargumentsTree => ?_
  refine (hb.part ht hcalleeTree).bind fun callee hcallee => ?_
  refine (lies_listed cuts (ht.inside hargumentsTree) fun u hu => hb.expression u _ hu).bind
    fun list hlist => gives_ok ?_
  refine ht.liesIn cuts rfl rfl hlist.2 (List.forall_mem_cons.mpr ⟨hcallee, fun n hn => ?_⟩)
  exact (hlist.1 n hn).mono (ht.takesIn hargumentsTree)

theorem lies_selector {kind : NodeKind} {mark : Kind} {build : Range → Node → Nat → Node → Node}
    (hmark : mark.text?.isSome = true)
    (hrange : ∀ r object position name, (build r object position name).range = r)
    (htext : ∀ r object position name, (build r object position name).text? = none)
    (hmarks : ∀ r object position name,
      (build r object position name).marks = [⟨mark, position⟩])
    (hchildren : ∀ r object position name,
      (build r object position name).children = [object, name]) :
    Gives (LiesIn input tokens t.stretch)
      (Lowering.selector (.ofTokens tokens) b t a kind mark build) := by
  unfold Lowering.selector
  refine gives_child.bind fun objectTree hobjectTree => ?_
  refine gives_child.bind fun nameTree hnameTree => ?_
  refine (gives_position cuts hmark).bind fun position hposition => ?_
  refine (hb.part ht hobjectTree).bind fun object hobject => ?_
  refine (hb.part ht hnameTree).bind fun name hname => gives_ok ?_
  exact ht.liesIn cuts (hrange ..) (htext ..) (hmarks .. ▸ hposition.only)
    (by simp [hchildren, hobject, hname])

theorem lies_arrayItem :
    Gives (LiesIn input tokens t.stretch) (Lowering.arrayItem (.ofTokens tokens) b t a) := by
  unfold Lowering.arrayItem
  refine gives_child.bind fun arrayTree harrayTree => ?_
  refine gives_child.bind fun indexTree hindexTree => ?_
  refine (hb.part ht harrayTree).bind fun array harray => ?_
  refine (hb.part ht hindexTree).bind fun index hindex => gives_ok ?_
  exact ht.liesIn cuts rfl rfl ((marked_position? cuts rfl).append (marked_position? cuts rfl))
    (by simp [Node.children, harray, hindex])

theorem lies_conditional :
    Gives (LiesIn input tokens t.stretch) (Lowering.conditional (.ofTokens tokens) b t a) := by
  unfold Lowering.conditional
  refine gives_child.bind fun conditionTree hconditionTree => ?_
  refine gives_child.bind fun trueTree htrueTree => gives_child.bind fun falseTree hfalseTree => ?_
  refine (hb.part ht hconditionTree).bind fun condition hcondition => ?_
  refine (gives_position cuts rfl).bind fun question hquestion => ?_
  refine (hb.part ht htrueTree).bind fun trueValue htrueValue => ?_
  refine (hb.part ht hfalseTree).bind fun falseValue hfalseValue => gives_ok ?_
  exact ht.liesIn cuts rfl rfl (hquestion.cons (marked_position? cuts rfl))
    (by simp [Node.children, hcondition, htrueValue, hfalseValue])

theorem lies_parenthesized :
    Gives (LiesIn input tokens t.stretch) (Lowering.parenthesized (.ofTokens tokens) b t a) := by
  unfold Lowering.parenthesized
  refine gives_child.bind fun insideTree hinsideTree => ?_
  refine (gives_position cuts rfl).bind fun openParen hopenParen => ?_
  refine (hb.part ht hinsideTree).bind fun inside hinside => gives_ok ?_
  exact ht.liesIn cuts rfl rfl (hopenParen.cons (marked_position? cuts rfl))
    (List.forall_mem_singleton.mpr hinside)

theorem lies_comma :
    Gives (LiesIn input tokens t.stretch) (Lowering.comma (.ofTokens tokens) b t a) := by
  unfold Lowering.comma
  refine (gives_mapM fun u hu => hb.part ht hu).bind fun items hitems => ?_
  refine (gives_commas cuts t.children).bind fun commas hcommas => ?_
  exact gives_ok (ht.liesIn cuts rfl rfl hcommas hitems)

theorem lies_item :
    Gives (LiesIn input tokens t.stretch) (Lowering.item (.ofTokens tokens) b t a) := by
  unfold Lowering.item
  split
  · rename_i value rest hchildren
    exact hb.part ht (by simp [hchildren])
  · exact gives_ok (ht.liesIn_empty cuts)

theorem lies_array :
    Gives (LiesIn input tokens t.stretch) (Lowering.array (.ofTokens tokens) b t a) := by
  unfold Lowering.array
  refine (gives_position cuts rfl).bind fun openBracket hopenBracket => ?_
  refine (gives_mapM fun u hu => (lies_item cuts (ht.inside hu) hb).inside ht hu).bind
    fun items hitems => ?_
  refine (gives_commas cuts t.children).bind fun commas hcommas => gives_ok ?_
  exact ht.liesIn cuts rfl rfl
    (hopenBracket.cons (hcommas.append (marked_position? cuts rfl))) hitems

theorem lies_propertyInitializer : Gives (LiesIn input tokens t.stretch)
    (Lowering.propertyInitializer (.ofTokens tokens) b t a) := by
  unfold Lowering.propertyInitializer
  refine gives_child.bind fun nameTree hnameTree => gives_child.bind fun valueTree hvalueTree => ?_
  refine (hb.part ht hnameTree).bind fun name hname => ?_
  refine (hb.part ht hvalueTree).bind fun value hvalue => gives_ok ?_
  exact ht.liesIn cuts rfl rfl (marked_position? cuts rfl)
    (by simp [Node.children, hname, hvalue])

theorem lies_getMethod (hkind : t.kind = .getKeyword) :
    Gives (LiesIn input tokens t.stretch) (Lowering.getMethod (.ofTokens tokens) b t a) := by
  unfold Lowering.getMethod
  refine gives_child.bind fun nameTree hnameTree => gives_child.bind fun bodyTree hbodyTree => ?_
  refine (gives_keyword cuts (ht.start_lt hkind rfl) rfl).bind fun word hword => ?_
  refine (hb.part ht hnameTree).bind fun name hname => ?_
  refine (lies_block_of_mem cuts ht hb hbodyTree).bind fun body hbody => gives_ok ?_
  exact ht.liesIn cuts rfl rfl ((marked_position? cuts rfl).append (marked_position? cuts rfl))
    (by simp [Node.children, hword, hname, hbody])

theorem lies_setMethod (hkind : t.kind = .setKeyword) :
    Gives (LiesIn input tokens t.stretch) (Lowering.setMethod (.ofTokens tokens) b t a) := by
  unfold Lowering.setMethod
  refine gives_child.bind fun nameTree hnameTree => ?_
  refine gives_child.bind fun argumentTree hargumentTree => ?_
  refine gives_child.bind fun bodyTree hbodyTree => ?_
  refine (gives_keyword cuts (ht.start_lt hkind rfl) rfl).bind fun word hword => ?_
  refine (hb.part ht hnameTree).bind fun name hname => ?_
  refine (lies_identifier_of_mem cuts ht hargumentTree).bind fun argument hargument => ?_
  refine (lies_block_of_mem cuts ht hb hbodyTree).bind fun body hbody => gives_ok ?_
  exact ht.liesIn cuts rfl rfl ((marked_position? cuts rfl).append (marked_position? cuts rfl))
    (by simp [Node.children, hword, hname, hargument, hbody])

theorem lies_objectMember :
    Gives (LiesIn input tokens t.stretch) (Lowering.objectMember (.ofTokens tokens) b t a) := by
  unfold Lowering.objectMember
  split
  · exact lies_propertyInitializer cuts ht hb
  · exact lies_getMethod cuts ht hb (by assumption)
  · exact lies_setMethod cuts ht hb (by assumption)
  · exact gives_error

theorem lies_object :
    Gives (LiesIn input tokens t.stretch) (Lowering.object (.ofTokens tokens) b t a) := by
  unfold Lowering.object
  dsimp only
  split
  · rename_i openBrace hopenBrace
    refine Gives.next rfl ?_
    refine (gives_mapM fun u hu => (lies_objectMember cuts (ht.inside hu) hb).inside ht hu).bind
      fun members hmembers => ?_
    refine (gives_commas cuts t.children).bind fun commas hcommas => gives_ok ?_
    exact ht.liesIn cuts rfl rfl ((stands_of_index? cuts rfl hopenBrace).cons
      (hcommas.append (marked_position? cuts rfl))) hmembers
  · exact gives_error

theorem lies_xmlPart :
    Gives (LiesIn input tokens t.stretch) (Lowering.xmlPart (.ofTokens tokens) b t a) := by
  unfold Lowering.xmlPart
  split
  · exact gives_ok (ht.liesIn_leaf cuts rfl rfl rfl rfl)
  · refine (hb.expression t _ ht).bind fun inside hinside => ?_
    exact gives_ok (hinside.around cuts rfl (Node.quotes_of_marked rfl marked_nil) rfl)

theorem lies_xmlLiteral :
    Gives (LiesIn input tokens t.stretch) (Lowering.xmlLiteral (.ofTokens tokens) b t a) := by
  unfold Lowering.xmlLiteral
  refine (gives_mapM fun u hu => ?_).bind fun parts hparts =>
    gives_ok (ht.liesIn cuts rfl rfl marked_nil hparts)
  have hu : u ∈ t.children := List.mem_mergeSort.mp hu
  exact (lies_xmlPart cuts (ht.inside hu) hb).inside ht hu

theorem lies_variableDeclaration (hkind : t.kind = .varKeyword) :
    Gives (LiesIn input tokens t.stretch)
      (Lowering.variableDeclaration (.ofTokens tokens) b t a) := by
  unfold Lowering.variableDeclaration
  refine (gives_keyword cuts (ht.start_lt hkind rfl) rfl).bind fun word hword => ?_
  refine (gives_mapM fun u hu => (lies_declarator cuts (ht.inside hu) hb).inside ht hu).bind
    fun declarations hdeclarations => ?_
  refine (gives_commas cuts t.children).bind fun commas hcommas => gives_ok ?_
  exact ht.liesIn cuts rfl rfl hcommas (List.forall_mem_cons.mpr ⟨hword, hdeclarations⟩)

theorem lies_expression {limit : Nat} : Gives (LiesIn input tokens t.stretch)
    (Lowering.expression (.ofTokens tokens) limit b t a) := by
  unfold Lowering.expression
  refine Gives.then ?_
  split
  · exact lies_wrapped cuts ht hb
  · exact lies_asterisk cuts ht hb (by assumption)
  · exact gives_ok (ht.liesIn_leaf cuts rfl rfl rfl rfl)
  · exact gives_ok (lies_null cuts ht (by assumption))
  · exact lies_thisExpression cuts ht (by assumption)
  · exact lies_identifier cuts ht
  · exact lies_parenthesized cuts ht hb
  · exact lies_comma cuts ht hb
  · exact lies_call cuts ht hb
  iterate 3
    exact lies_selector cuts ht hb rfl (fun _ _ _ _ => rfl) (fun _ _ _ _ => rfl)
      (fun _ _ _ _ => rfl) fun _ _ _ _ => rfl
  · exact lies_arrayItem cuts ht hb
  · exact lies_newExpression cuts ht hb (by assumption)
  · exact lies_conditional cuts ht hb
  iterate 4 exact lies_keywordOperation cuts ht hb (by assumption) rfl rfl
  iterate 8 exact lies_unary cuts ht hb (by assumption) rfl
  · exact lies_array cuts ht hb
  · exact lies_object cuts ht hb
  · exact lies_function cuts ht hb (by assumption)
  · exact lies_variableDeclaration cuts ht hb (by assumption)
  · exact lies_xmlLiteral cuts ht hb
  · split
    · exact gives_ok (ht.liesIn_leaf cuts rfl rfl rfl rfl)
    · split
      · exact lies_binary cuts ht hb (by assumption)
      · exact gives_error

end
end ScriptTree
