import ScriptTree.Proofs.ScannerRuns
import ScriptTree.Proofs.TokenOffsets
import ScriptTree.Text.IdentifierTable

/-!
Cutting a text loses nothing. The tokens of a text, put together, give it back, and the places
where it is cut lie between characters. The same holds of the pieces that are read without regard
to what came before. Both scans come to a result whatever the text, since a call of the scanner
that stands between characters moves on, and only to such places.
-/
namespace ScriptTree

/-- What the steps of a cut preserve holds when the text is used up. `P` may speak of the text that
is left; a step that reads a lexeme passes over its first character at once. -/
theorem cut_preserves {σ : Type} {emit : σ → Char → List Char → σ × Nat}
    {pass : σ → Char → Option Char → σ} {P : List Char → σ → Prop}
    (hemit : ∀ s c rest, P (c :: rest) s → P rest (pass (emit s c rest).1 c rest.head?))
    (hpass : ∀ s c rest, P (c :: rest) s → P rest (pass s c rest.head?))
    (skip : Nat) (text : List Char) (s : σ) (h : P text s) : P [] (cut emit pass skip text s) := by
  induction text generalizing skip s with
  | nil => cases skip <;> exact h
  | cons c rest ih =>
    cases skip with
    | zero => exact ih _ _ (hemit s c rest h)
    | succ skip => exact ih _ _ (hpass s c rest h)

/-- The same, where `P` also speaks of how many characters of the last lexeme are left. -/
theorem cut_preserves_skip {σ : Type} {emit : σ → Char → List Char → σ × Nat}
    {pass : σ → Char → Option Char → σ} {P : Nat → List Char → σ → Prop}
    (hemit : ∀ s c rest, P 0 (c :: rest) s →
      P ((emit s c rest).2 + 1) (c :: rest) (emit s c rest).1)
    (hpass : ∀ skip s c rest, P (skip + 1) (c :: rest) s → P skip rest (pass s c rest.head?))
    (skip : Nat) (text : List Char) (s : σ) (h : P skip text s) :
    ∃ left, P left [] (cut emit pass skip text s) := by
  induction text generalizing skip s with
  | nil =>
    refine ⟨skip, ?_⟩
    cases skip <;> exact h
  | cons c rest ih =>
    cases skip with
    | zero => exact ih _ _ (hpass _ _ c rest (hemit s c rest h))
    | succ skip => exact ih _ _ (hpass skip s c rest h)

/-- The texts of tokens, one after the other. -/
def texts (tokens : Array Token) : List Char := tokens.toList.flatMap (·.text.toList)

theorem texts_push (tokens : Array Token) (t : Token) :
    texts (tokens.push t) = texts tokens ++ t.text.toList := by
  simp [texts]

/-- What is true of each token and those before it stays true when one more is added. -/
theorem forall_push {P : List Token → Token → Prop} {tokens : Array Token} {u : Token}
    (h : ∀ (i : Nat) (t : Token), tokens[i]? = some t → P (tokens.toList.take i) t)
    (hu : P tokens.toList u) (i : Nat) (t : Token) (ht : (tokens.push u)[i]? = some t) :
    P ((tokens.push u).toList.take i) t := by
  rw [Array.toList_push]
  rw [Array.getElem?_push] at ht
  split at ht
  · rename_i hi
    obtain rfl := Option.some.inj ht
    rwa [hi, ← Array.length_toList, List.take_left]
  · have hi : i < tokens.size := (Array.getElem?_eq_some_iff.mp ht).1
    rw [List.take_append_of_le_length (by rw [Array.length_toList]; exact Nat.le_of_lt hi)]
    exact h i t ht

namespace Scan

/-- The token that a reading with the given characters makes at the current place. -/
def tokenOf (s : Scan) (r : Reading) (text : List Char) : Token where
  kind := r.kind
  text := String.ofList text
  line := s.place.line
  column := s.place.column
  index := s.tokens.size
  lineBreakBefore := !r.kind.isHidden && s.lineBroken
  unterminated := r.isUnterminated

theorem push_tokens (s : Scan) (r : Reading) (text : List Char) :
    (s.push r text).tokens = s.tokens.push (s.tokenOf r text) := by
  unfold push
  dsimp only
  split <;> rfl

section
variable [Alphabet]

/-- The token that begins with `c`. -/
def nextToken (xmlLiterals : Bool) (s : Scan) (c : Char) (rest : List Char) : Token :=
  let l := (Lexeme.next xmlLiterals s.afterOperand s.modes c rest).1
  s.tokenOf l ((c :: rest).take l.size)

theorem take_tokens (xmlLiterals : Bool) (s : Scan) (c : Char) (rest : List Char) :
    (take xmlLiterals s c rest).1.tokens = s.tokens.push (s.nextToken xmlLiterals c rest) :=
  s.push_tokens _ _

omit [Alphabet] in
theorem closeText_tokens (s : Scan) : s.closeText.tokens = s.tokens := by
  unfold closeText
  split <;> rfl

omit [Alphabet] in
theorem finish_tokens (s : Scan) : s.finish.tokens = s.tokens := by
  unfold finish
  split <;> rfl

/-- The token of a lexeme takes the characters that are passed over until the next one. -/
theorem cut_texts (xmlLiterals : Bool) (skip : Nat) (text : List Char) (s : Scan) :
    texts (cut (take xmlLiterals) pass skip text s).tokens = texts s.tokens ++ text.drop skip := by
  induction text generalizing skip s with
  | nil => cases skip <;> simp [cut]
  | cons c rest ih =>
    cases skip with
    | succ skip =>
      rw [cut, ih]
      rfl
    | zero =>
      rw [cut]
      dsimp only
      rw [ih]
      have htokens : (pass (take xmlLiterals s c rest).1 c rest.head?).tokens =
          s.tokens.push (s.nextToken xmlLiterals c rest) := s.take_tokens xmlLiterals c rest
      have hmore := Lexeme.next_more_add_one xmlLiterals s.afterOperand s.modes c rest
      rw [htokens, texts_push, nextToken, tokenOf, String.toList_ofList, List.drop_zero,
        List.append_assoc, ← hmore]
      congr 1
      exact congrArg (c :: ·) (List.take_append_drop _ rest)

/-- The tokens read so far: none is empty, each knows its place, each is of a readable kind, and
punctuation and keywords are written as they are spelled. -/
def WellMade (s : Scan) : Prop :=
  ∀ (i : Nat) (t : Token), s.tokens[i]? = some t →
    t.text ≠ "" ∧ t.index = i ∧ Lexeme.isReadable t.kind = true ∧
      ∀ mark, t.kind.text? = some mark → t.text = mark

theorem take_wellMade (xmlLiterals : Bool) {s : Scan} (c : Char) (rest : List Char)
    (h : s.WellMade) : (take xmlLiterals s c rest).1.WellMade := by
  intro i t ht
  rw [s.take_tokens xmlLiterals c rest, Array.getElem?_push] at ht
  split at ht
  · rename_i hi
    obtain rfl := Option.some.inj ht
    have hread := Lexeme.next_readable xmlLiterals s.afterOperand s.modes c rest
    refine ⟨?_, hi.symm, hread.kind_readable, fun mark hmark => ?_⟩
    · have hsize := Lexeme.next_size_pos xmlLiterals s.afterOperand s.modes c rest
      simp [nextToken, tokenOf, Nat.ne_of_gt hsize]
    · rw [nextToken, tokenOf, hread.take_size mark hmark, String.ofList_toList]
  · exact h i t ht

end

end Scan

/-- Tokens that make up a text: nothing is lost, nothing is empty, and every cut is a boundary. -/
structure Faithful (text : String) (tokens : Array Token) : Prop where
  join_texts : String.join (tokens.toList.map (·.text)) = text
  text_ne_empty : ∀ t ∈ tokens, t.text ≠ ""
  index_eq : ∀ (i : Nat) (t : Token), tokens[i]? = some t → t.index = i
  kind_isToken : ∀ t ∈ tokens, t.kind.isToken = true ∧ t.kind ≠ .endOfFile
  boundary : ∀ i, IsBoundary text ((Offsets.ofTokens tokens).get i)

section
variable [Alphabet]

theorem tokenize_tokens (text : String) (xmlLiterals : Bool) :
    (tokenize text xmlLiterals).tokens =
      (cut (Scan.take xmlLiterals) Scan.pass 0 text.toList {}).tokens := by
  rw [tokenize_eq]
  dsimp only
  rw [Scan.finish_tokens, Scan.closeText_tokens]

theorem tokenize_texts (text : String) (xmlLiterals : Bool) :
    texts (tokenize text xmlLiterals).tokens = text.toList := by
  rw [tokenize_tokens, Scan.cut_texts]
  simp [texts]

theorem tokenize_wellMade {text : String} {xmlLiterals : Bool} {i : Nat} {t : Token}
    (h : (tokenize text xmlLiterals).tokens[i]? = some t) :
    t.text ≠ "" ∧ t.index = i ∧ Lexeme.isReadable t.kind = true ∧
      ∀ mark, t.kind.text? = some mark → t.text = mark := by
  rw [tokenize_tokens] at h
  have hrun : (cut (Scan.take xmlLiterals) Scan.pass 0 text.toList {}).WellMade := by
    apply cut_preserves (P := fun _ (s : Scan) => s.WellMade)
    · intro s c rest hs
      exact Scan.take_wellMade xmlLiterals c rest hs
    · intro s c rest hs
      exact hs
    · intro j u hu
      simp at hu
  exact hrun i t h

omit [Alphabet] in
/-- The length of tokens is that of their texts. -/
theorem totalLength_eq (tokens : List Token) :
    totalLength tokens = (String.ofList (tokens.flatMap (·.text.toList))).utf8ByteSize := by
  induction tokens with
  | nil => rfl
  | cons t rest ih =>
    rw [totalLength, ih, List.flatMap_cons, String.ofList_append, String.utf8ByteSize_append,
      String.ofList_toList]
    rfl

theorem tokenize_faithful (text : String) (xmlLiterals : Bool) :
    Faithful text (tokenize text xmlLiterals).tokens := by
  have htexts := tokenize_texts text xmlLiterals
  constructor
  · apply String.toList_inj.mp
    rw [String.toList_join, ← htexts, List.flatMap_map]
    rfl
  · intro t ht
    obtain ⟨i, hi⟩ := Array.mem_iff_getElem?.mp ht
    exact (tokenize_wellMade hi).1
  · intro i t ht
    exact (tokenize_wellMade ht).2.1
  · intro t ht
    obtain ⟨i, hi⟩ := Array.mem_iff_getElem?.mp ht
    have hk := (tokenize_wellMade hi).2.2.1
    rw [Lexeme.isReadable, Bool.and_eq_true, bne_iff_ne] at hk
    exact hk
  · intro i
    rw [Offsets.get_ofTokens, totalLength_eq, utf8ByteSize_ofList]
    refine isBoundary_iff.mpr
      ⟨_, ((tokenize text xmlLiterals).tokens.toList.drop i).flatMap (·.text.toList), ?_, rfl⟩
    rw [← List.flatMap_append, List.take_append_drop]
    exact htexts

end

namespace Pieces

/-- Where the pieces begin. -/
def starts (p : Pieces) : List Nat := p.pieces.toList.map Prod.snd

/-- The places where a text is cut, its end included. -/
def cuts (p : Pieces) : List Nat := p.starts ++ [p.offset]

/-- The pieces before `rest` have been read, of which there is at least one. -/
structure ReadUpto (text : String) (rest : List Char) (p : Pieces) : Prop where
  position : ∃ before, before ++ rest = text.toList ∧ byteLength before = p.offset
  increasing : p.cuts.Pairwise (· < ·)
  from_zero : p.starts.head? = some 0
  boundary : ∀ pos ∈ p.starts, IsBoundary text pos

theorem position_pass {text : String} {c : Char} {rest : List Char} {p : Pieces}
    (next : Option Char)
    (h : ∃ before, before ++ c :: rest = text.toList ∧ byteLength before = p.offset) :
    ∃ before, before ++ rest = text.toList ∧ byteLength before = (p.pass c next).offset := by
  obtain ⟨before, happend, hoffset⟩ := h
  refine ⟨before ++ [c], by rw [List.append_assoc]; exact happend, ?_⟩
  rw [byteLength_append, byteLength_cons, byteLength_nil, hoffset]
  rfl

theorem cuts_pass (p : Pieces) (c : Char) (next : Option Char) :
    (p.pass c next).cuts = p.starts ++ [p.offset + c.utf8Size] := rfl

/-- The last cut moves on by a character, which has at least one byte. -/
theorem increasing_pass {p : Pieces} (c : Char) (next : Option Char)
    (h : p.cuts.Pairwise (· < ·)) : (p.pass c next).cuts.Pairwise (· < ·) := by
  have hpos := c.utf8Size_pos
  rw [cuts, List.pairwise_append] at h
  rw [cuts_pass, List.pairwise_append]
  refine ⟨h.1, List.pairwise_singleton _ _, ?_⟩
  intro a ha b hb
  have hlt := h.2.2 a ha p.offset (List.mem_singleton_self _)
  rw [List.mem_singleton] at hb
  omega

theorem readUpto_pass {text : String} {p : Pieces} (c : Char) (rest : List Char)
    (h : p.ReadUpto text (c :: rest)) : (p.pass c rest.head?).ReadUpto text rest where
  position := position_pass _ h.position
  increasing := increasing_pass c _ h.increasing
  from_zero := h.from_zero
  boundary := h.boundary

theorem starts_take [Alphabet] (xmlLiterals : Bool) (p : Pieces) (c : Char) (rest : List Char) :
    (take xmlLiterals p c rest).1.starts = p.starts ++ [p.offset] := by
  simp [take, starts]

/-- A new piece begins at the last cut. -/
theorem readUpto_take [Alphabet] (xmlLiterals : Bool) {text : String} {p : Pieces} (c : Char)
    (rest : List Char) (hzero : (p.starts ++ [p.offset]).head? = some 0)
    (hposition : ∃ before, before ++ c :: rest = text.toList ∧ byteLength before = p.offset)
    (hincreasing : p.cuts.Pairwise (· < ·)) (hboundary : ∀ pos ∈ p.starts, IsBoundary text pos) :
    ((take xmlLiterals p c rest).1.pass c rest.head?).ReadUpto text rest where
  position := position_pass (p := (take xmlLiterals p c rest).1) _ hposition
  increasing := by
    rw [cuts_pass, starts_take, List.pairwise_append]
    refine ⟨hincreasing, List.pairwise_singleton _ _, ?_⟩
    intro a ha b hb
    have hpos := c.utf8Size_pos
    have hoffset : (take xmlLiterals p c rest).1.offset = p.offset := rfl
    rw [List.mem_singleton] at hb
    rw [cuts, List.pairwise_append] at hincreasing
    rcases List.mem_append.mp ha with ha | ha
    · have hlt := hincreasing.2.2 a ha p.offset (List.mem_singleton_self _)
      omega
    · rw [List.mem_singleton] at ha
      omega
  from_zero := by
    have hstarts : ((take xmlLiterals p c rest).1.pass c rest.head?).starts =
        p.starts ++ [p.offset] := starts_take xmlLiterals p c rest
    rw [hstarts, hzero]
  boundary := by
    intro pos hmem
    have hmem : pos ∈ p.starts ++ [p.offset] := starts_take xmlLiterals p c rest ▸ hmem
    rcases List.mem_append.mp hmem with hmem | hmem
    · exact hboundary pos hmem
    · obtain ⟨before, happend, hoffset⟩ := hposition
      rw [List.mem_singleton] at hmem
      exact isBoundary_iff.mpr ⟨before, _, happend, by rw [hoffset, hmem]⟩

/-- A text cut into pieces that are not empty, between characters and from end to end. -/
structure CutUp (text : String) (p : Pieces) : Prop where
  from_zero : p.cuts.head? = some 0
  to_end : p.offset = text.utf8ByteSize
  increasing : p.cuts.Pairwise (· < ·)
  boundary : ∀ pos ∈ p.cuts, IsBoundary text pos

theorem cutUp_of_readUpto {text : String} {p : Pieces} (h : p.ReadUpto text []) :
    p.CutUp text := by
  obtain ⟨before, happend, hoffset⟩ := h.position
  have hend : p.offset = text.utf8ByteSize := by
    rw [List.append_nil] at happend
    rw [← hoffset, happend, ← utf8ByteSize_ofList, String.ofList_toList]
  refine ⟨?_, hend, h.increasing, ?_⟩
  · rw [cuts, List.head?_append, h.from_zero]
    rfl
  · intro pos hmem
    rcases List.mem_append.mp hmem with hmem | hmem
    · exact h.boundary pos hmem
    · rw [List.mem_singleton] at hmem
      exact isBoundary_iff.mpr ⟨before, [], happend, by rw [hoffset, hmem]⟩

/-- The end of the input cuts nothing. -/
theorem CutUp.closeText {text : String} {p : Pieces} (h : p.CutUp text) :
    p.closeText.CutUp text := by
  unfold Pieces.closeText
  split
  · exact ⟨h.from_zero, h.to_end, h.increasing, h.boundary⟩
  · exact h

end Pieces

section
variable [Alphabet]

theorem pieces_cutUp (text : String) (xmlLiterals : Bool) :
    (pieces text xmlLiterals).CutUp text := by
  rw [pieces_eq]
  apply Pieces.CutUp.closeText
  cases htext : text.toList with
  | nil =>
    have hempty : text = "" := String.toList_eq_nil_iff.mp htext
    subst hempty
    refine ⟨rfl, rfl, List.pairwise_singleton _ _, ?_⟩
    intro pos hmem
    obtain rfl : pos = 0 := List.mem_singleton.mp hmem
    exact isBoundary_iff.mpr ⟨[], [], rfl, rfl⟩
  | cons c rest =>
    apply Pieces.cutUp_of_readUpto
    rw [cut]
    -- The first piece begins at the start of the text; from there on each step keeps the cuts.
    apply cut_preserves (P := fun rest (p : Pieces) => p.ReadUpto text rest)
    · intro p d tail hp
      apply Pieces.readUpto_take xmlLiterals d tail _ hp.position hp.increasing hp.boundary
      rw [List.head?_append, hp.from_zero]
      rfl
    · intro p d tail hp
      exact Pieces.readUpto_pass d tail hp
    · apply Pieces.readUpto_take xmlLiterals c rest rfl ⟨[], htext.symm, rfl⟩
        (List.pairwise_singleton _ _)
      intro pos hmem
      cases hmem

end

/-- A place where the scanner may stand in a text: between characters, with those before it that
come next. -/
def Head.StandsIn (text : String) (h : Head) : Prop := sliceFrom? text.toList h.pos = some h.rest

namespace Head

theorem StandsIn.past {text : String} {h : Head} (hh : h.StandsIn text) (n : Nat) :
    (h.past n).StandsIn text := by
  obtain ⟨before, happend, hlength⟩ := sliceFrom?_eq_some_iff.mp hh
  refine sliceFrom?_eq_some_iff.mpr ⟨before ++ h.rest.take n, ?_, ?_⟩
  · rw [past_rest, List.append_assoc, List.take_append_drop, happend]
  · rw [byteLength_append, hlength]
    rfl

/-- What a call of the scanner at `h` may come to: a token, and a place further on; or none at the
end of the input. -/
structure Progress (text : String) (h : Head) (x : Scanned) : Prop where
  standsIn : x.stop.StandsIn text
  token_iff : x.token.isSome = true ↔ h.rest ≠ []
  pos_lt : x.token.isSome = true → h.pos < x.stop.pos
  stop_eq : x.token = none → x.stop = h

/-- A call gives a result in every state of the scanner: it slices between characters only, its
loops come to an end, and it moves on, unless the input has ended. -/
theorem scan_progress [Alphabet] {text : String} {h : Head} (hh : h.StandsIn text)
    (xmlLiterals afterOperand : Bool) (modes : List Mode) :
    ∃ x, h.scan xmlLiterals afterOperand modes = some x ∧ h.Progress text x := by
  obtain ⟨pos, rest⟩ := h
  cases rest with
  | nil =>
    rw [scan_end]
    split
    · exact ⟨_, rfl, hh, by simp, nofun, fun _ => rfl⟩
    · exact ⟨_, rfl, hh, by simp, nofun, fun _ => rfl⟩
  | cons c rest =>
    have hsize := Lexeme.next_size_pos xmlLiterals afterOperand modes c rest
    refine ⟨_, scan_eq xmlLiterals afterOperand modes pos c rest, hh.past _, ?_, ?_, nofun⟩
    · exact iff_of_true rfl (List.cons_ne_nil c rest)
    · exact fun _ => pos_lt_past hsize (List.cons_ne_nil c rest)

end Head

/-- Full fidelity. Slices are given between characters only, and yet both scans of a text come to a
result: the tokens make the text up again, and the pieces that are read without regard to earlier
ones cut it up from end to end. Every call of the scanner at a place between characters, in whatever
modes, gives a token and moves on to such a place, or meets the end. -/
theorem scan_full_fidelity [Alphabet] (text : String) (xmlLiterals : Bool) :
    (∀ pos, ((sliceFrom? text.toList pos).isSome = true ↔ IsBoundary text pos) ∧
        ((sliceTo? text.toList pos).isSome = true ↔ IsBoundary text pos)) ∧
      (∃ r, tokenize? text xmlLiterals = some r ∧ Faithful text r.tokens) ∧
      (∃ p, pieces? text xmlLiterals = some p ∧ p.CutUp text) ∧
      ∀ (h : Head), h.StandsIn text → ∀ (afterOperand : Bool) (modes : List Mode),
        ∃ x, h.scan xmlLiterals afterOperand modes = some x ∧ h.Progress text x := by
  refine ⟨fun _ => ⟨isSome_sliceFrom?_iff, isSome_sliceTo?_iff⟩,
    ⟨_, tokenize?_eq text xmlLiterals, tokenize_faithful text xmlLiterals⟩,
    ⟨_, pieces?_eq text xmlLiterals, pieces_cutUp text xmlLiterals⟩, ?_⟩
  intro h hh afterOperand modes
  exact Head.scan_progress hh xmlLiterals afterOperand modes

/-- An XML literal that is cut short, after a character of two bytes. -/
theorem scan_full_fidelity_tag :
    Head.StandsIn "é<a" ⟨2, ['<', 'a']⟩ ∧ ∃ x, Head.scan true false [] ⟨2, ['<', 'a']⟩ = some x ∧
      Head.Progress "é<a" ⟨2, ['<', 'a']⟩ x :=
  ⟨rfl, (scan_full_fidelity "é<a" true).2.2.2 ⟨2, ['<', 'a']⟩ rfl false []⟩

end ScriptTree
