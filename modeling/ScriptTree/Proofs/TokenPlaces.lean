import Mathlib.Data.List.TakeWhile
import ScriptTree.Proofs.TextCut

/-!
Where tokens stand, told in three ways. The scan keeps a running line and column, the line map is
made of the whole text at once, and the offsets only add up the lengths of tokens. They agree on
every token: at any place of the scan the line starts of the text are those it has passed and those
that are still to come.
-/
namespace ScriptTree

/-- The lines that begin inside a text begin after its first character. -/
theorem lt_of_mem_laterLineStarts {pos start : Nat} {text : List Char}
    (h : start ∈ laterLineStarts pos text) : pos < start := by
  induction text generalizing pos with
  | nil => cases h
  | cons c rest ih =>
    have hsize := c.utf8Size_pos
    rw [laterLineStarts] at h
    split at h
    · rcases List.mem_cons.mp h with rfl | h
      · omega
      · have := ih h
        omega
    · have := ih h
      omega

/-- Line map `m` has the lines that were begun up to place `p`, of which the place knows the number
and the start of the last, and then those that begin inside `rest`. -/
def Place.Divides (m : LineMap) (rest : List Char) (p : Place) : Prop :=
  ∃ begun : List Nat, m.starts = begun ++ laterLineStarts p.offset rest ∧ begun.length = p.line ∧
    begun.getLast? = some p.lineStart ∧ ∀ start ∈ begun, start ≤ p.offset

namespace Place
variable {m : LineMap} {p : Place}

theorem divides_ofText (text : String) : Divides (.ofText text) text.toList {} :=
  ⟨[0], rfl, rfl, rfl, by simp⟩

/-- Passing a character keeps the division of the lines into those begun and those to come. -/
theorem Divides.step {c : Char} {rest : List Char} (h : p.Divides m (c :: rest)) :
    (p.step c rest.head?).Divides m rest := by
  obtain ⟨begun, hstarts, hlength, hlast, hle⟩ := h
  rw [laterLineStarts] at hstarts
  unfold Place.step
  dsimp only
  split at hstarts
  · rename_i hends
    rw [if_pos hends]
    refine ⟨begun ++ [p.offset + c.utf8Size], by simp [hstarts], by simp [hlength], by simp, ?_⟩
    intro start hmem
    rcases List.mem_append.mp hmem with hmem | hmem
    · have := hle start hmem
      dsimp only
      omega
    · exact Nat.le_of_eq (List.mem_singleton.mp hmem)
  · rename_i hends
    rw [if_neg hends]
    refine ⟨begun, hstarts, hlength, hlast, fun start hmem => ?_⟩
    exact Nat.le_trans (hle start hmem) (Nat.le_add_right _ _)

theorem Divides.line_pos {rest : List Char} (h : p.Divides m rest) : 0 < p.line := by
  obtain ⟨begun, _, hlength, hlast, _⟩ := h
  rw [← hlength]
  exact List.length_pos_iff.mpr fun hnil => by simp [hnil] at hlast

/-- The last line that was begun is that of the place, since those to come begin after it. -/
theorem Divides.lineOf_offset {rest : List Char} (h : p.Divides m rest) :
    m.lineOf p.offset = p.line - 1 := by
  obtain ⟨begun, hstarts, hlength, _, hle⟩ := h
  have hlater : (laterLineStarts p.offset rest).takeWhile (· ≤ p.offset) = [] := by
    rw [List.takeWhile_eq_nil_iff]
    intro hpos
    have hlt := lt_of_mem_laterLineStarts (List.getElem_mem hpos)
    simpa using hlt
  rw [LineMap.lineOf, hstarts, List.takeWhile_append_of_pos (by simpa using hle), hlater,
    List.append_nil, hlength]

theorem Divides.lineStart_line {rest : List Char} (h : p.Divides m rest) :
    m.lineStart (p.line - 1) = p.lineStart ∧ p.lineStart ≤ p.offset := by
  have hpos := h.line_pos
  obtain ⟨begun, hstarts, hlength, hlast, hle⟩ := h
  refine ⟨?_, hle _ (List.mem_of_getLast? hlast)⟩
  rw [List.getLast?_eq_getElem?, hlength] at hlast
  rw [LineMap.lineStart, hstarts, List.getElem?_append_left (by omega), hlast]
  rfl

/-- The line map finds the line and column of a place at its position. -/
theorem Divides.locate_offset {rest : List Char} (h : p.Divides m rest) :
    m.locate p.offset = ⟨p.line - 1, p.column⟩ := by
  rw [LineMap.locate, h.lineOf_offset, h.lineStart_line.1]
  rfl

/-- The line map finds the position of a place at its line and column. -/
theorem Divides.offsetOf_line_column {rest : List Char} (h : p.Divides m rest)
    (hlength : p.offset ≤ m.length) : m.offsetOf (p.line - 1) p.column = p.offset := by
  obtain ⟨hstart, hle⟩ := h.lineStart_line
  rw [LineMap.offsetOf, hstart, column, Nat.add_sub_cancel' hle, Nat.min_eq_left hlength]

end Place

/-- Line map `m` has the line and column of token `t` at position `pos`. -/
structure Token.StandsAt (t : Token) (m : LineMap) (pos : Nat) : Prop where
  line_pos : 0 < t.line
  locate_eq : m.locate pos = ⟨t.line - 1, t.column⟩
  offsetOf_eq : m.offsetOf (t.line - 1) t.column = pos

namespace Scan

theorem push_place (s : Scan) (r : Reading) (text : List Char) :
    (s.push r text).place = s.place := by
  unfold push
  dsimp only
  split <;> rfl

/-- What is true of a scan that has `rest` still before it, of which `skip` characters belong to the
last token: its place is where the characters before `rest` end, and every token stands where the
tokens before it end. -/
structure Stands (text : String) (skip : Nat) (rest : List Char) (s : Scan) : Prop where
  divides : s.place.Divides (.ofText text) rest
  position : ∃ before, before ++ rest = text.toList ∧
    s.place.offset = (String.ofList before).utf8ByteSize ∧
    texts s.tokens = before ++ rest.take skip
  tokens : ∀ (i : Nat) (t : Token), s.tokens[i]? = some t →
    t.StandsAt (.ofText text) (totalLength (s.tokens.toList.take i))

variable {text : String} {skip : Nat} {c : Char} {rest : List Char} {s : Scan}

theorem Stands.pass (h : s.Stands text (skip + 1) (c :: rest)) :
    (s.pass c rest.head?).Stands text skip rest where
  divides := h.divides.step
  position := by
    obtain ⟨before, happend, hoffset, htexts⟩ := h.position
    refine ⟨before ++ [c], by simpa using happend, ?_, ?_⟩
    · rw [utf8ByteSize_ofList, byteLength_append, ← utf8ByteSize_ofList, ← hoffset, Scan.pass,
        Place.step]
      dsimp only
      split <;> rfl
    · show texts s.tokens = before ++ [c] ++ rest.take skip
      rw [htexts, List.take_succ_cons, List.append_assoc, List.singleton_append]
  tokens := h.tokens

/-- The token of the next lexeme is put where all the tokens before it end. -/
theorem Stands.take [Alphabet] (xmlLiterals : Bool) (h : s.Stands text 0 (c :: rest)) :
    (Scan.take xmlLiterals s c rest).1.Stands text
      ((Scan.take xmlLiterals s c rest).2 + 1) (c :: rest) := by
  obtain ⟨before, happend, hoffset, htexts⟩ := h.position
  have hplace : (Scan.take xmlLiterals s c rest).1.place = s.place := s.push_place _ _
  rw [List.take_zero, List.append_nil] at htexts
  constructor
  · rw [hplace]
    exact h.divides
  · refine ⟨before, happend, by rw [hplace, hoffset], ?_⟩
    have hmore := Lexeme.next_more_add_one xmlLiterals s.afterOperand s.modes c rest
    rw [s.take_tokens, texts_push, htexts, nextToken, tokenOf, String.toList_ofList, ← hmore]
    rfl
  · have hlength : s.place.offset ≤ (LineMap.ofText text).length := by
      have htotal : text = String.ofList before ++ String.ofList (c :: rest) := by
        rw [← String.ofList_append, happend, String.ofList_toList]
      have hsize := congrArg String.utf8ByteSize htotal
      rw [String.utf8ByteSize_append] at hsize
      rw [hoffset]
      show _ ≤ text.utf8ByteSize
      omega
    have hpos : totalLength s.tokens.toList = s.place.offset := by
      rw [totalLength_eq, hoffset]
      exact congrArg (fun cs => (String.ofList cs).utf8ByteSize) htexts
    rw [s.take_tokens]
    apply forall_push (P := fun before t => t.StandsAt (.ofText text) (totalLength before)) h.tokens
    rw [hpos]
    exact ⟨h.divides.line_pos, h.divides.locate_offset, h.divides.offsetOf_line_column hlength⟩

/-- Whatever a scan has passed, its tokens stand where the tokens before them end. -/
theorem Stands.cut [Alphabet] (xmlLiterals : Bool) (h : s.Stands text skip rest) :
    ∃ left, (ScriptTree.cut (Scan.take xmlLiterals) Scan.pass skip rest s).Stands text left [] :=
  cut_preserves_skip (P := Stands text)
    (fun _ _ _ h => h.take xmlLiterals) (fun _ _ _ _ h => h.pass) skip rest s h

end Scan

theorem stands_start (text : String) : Scan.Stands text 0 text.toList {} where
  divides := Place.divides_ofText text
  position := ⟨[], rfl, rfl, rfl⟩
  tokens := by
    intro i t ht
    simp at ht

/-- The line map of a text has every token where the tokens before it end. -/
theorem tokenize_standsAt [Alphabet] {text : String} {xmlLiterals : Bool} {i : Nat} {t : Token}
    (h : (tokenize text xmlLiterals).tokens[i]? = some t) :
    t.StandsAt (.ofText text) (Offsets.get (.ofTokens (tokenize text xmlLiterals).tokens) i) := by
  obtain ⟨left, hstands⟩ := (stands_start text).cut xmlLiterals
  rw [tokenize_tokens] at h ⊢
  rw [Offsets.get_ofTokens]
  exact hstands.tokens i t h

theorem extract_between (before inner after : String) :
    (before ++ (inner ++ after)).toByteArray.extract before.utf8ByteSize
      (before.utf8ByteSize + inner.utf8ByteSize) = inner.toByteArray := by
  rw [String.toByteArray_append, String.toByteArray_append]
  have hskip := ByteArray.extract_append_size_add (a := before.toByteArray)
    (b := inner.toByteArray ++ after.toByteArray) (i := 0) (j := inner.toByteArray.size)
  rw [Nat.add_zero, String.size_toByteArray, String.size_toByteArray] at hskip
  rw [hskip, ByteArray.extract_append_eq_left String.size_toByteArray.symm]

/-- From position `pos` on, a text reads `part`. -/
def ReadsAt (text : String) (pos : Nat) (part : String) : Prop :=
  ∃ before after, text = before ++ (part ++ after) ∧ before.utf8ByteSize = pos

theorem ReadsAt.extract {text part : String} {pos : Nat} (h : ReadsAt text pos part) :
    text.toByteArray.extract pos (pos + part.utf8ByteSize) = part.toByteArray := by
  obtain ⟨before, after, rfl, rfl⟩ := h
  exact extract_between before part after

/-- Range `r` of a text reads `part`. -/
def Range.Reads (text : String) (r : Range) (part : String) : Prop :=
  ReadsAt text r.start part ∧ r.stop = r.start + part.utf8ByteSize

theorem Range.Reads.unique {text part part' : String} {r : Range} (h : r.Reads text part)
    (h' : r.Reads text part') : part = part' := by
  have hsize : part.utf8ByteSize = part'.utf8ByteSize :=
    Nat.add_left_cancel (h.2.symm.trans h'.2)
  apply String.toByteArray_inj.mp
  rw [← h.1.extract, ← h'.1.extract, hsize]

namespace Faithful
variable {text : String} {tokens : Array Token} (h : Faithful text tokens)
include h

/-- Between two tokens the text reads as the tokens from the one to the other do. -/
theorem reads_between {i j : Nat} (hij : i ≤ j) :
    Range.Reads text ⟨(Offsets.ofTokens tokens).get i, (Offsets.ofTokens tokens).get j⟩
      (String.ofList (((tokens.toList.take j).drop i).flatMap (·.text.toList))) := by
  have htexts : tokens.toList.flatMap (·.text.toList) = text.toList := by
    rw [← h.join_texts, String.toList_join, List.flatMap_map]
  have hbefore : (tokens.toList.take j).take i = tokens.toList.take i := by
    rw [List.take_take, Nat.min_eq_left hij]
  constructor
  · -- The text falls into that of the tokens before, that of these, and that of those after.
    refine ⟨String.ofList ((tokens.toList.take i).flatMap (·.text.toList)),
      String.ofList ((tokens.toList.drop j).flatMap (·.text.toList)), ?_, ?_⟩
    · apply String.toList_inj.mp
      rw [String.toList_append, String.toList_append, String.toList_ofList, String.toList_ofList,
        String.toList_ofList, ← List.append_assoc, ← List.flatMap_append, ← List.flatMap_append,
        ← hbefore, List.take_append_drop, List.take_append_drop]
      exact htexts.symm
    · rw [Offsets.get_ofTokens, totalLength_eq]
  · dsimp only
    rw [Offsets.get_ofTokens, Offsets.get_ofTokens, ← totalLength_eq, ← hbefore,
      ← totalLength_append, List.take_append_drop]

/-- Where a token begins the text reads as the token does. -/
theorem readsAt {i : Nat} {t : Token} (ht : tokens[i]? = some t) :
    ReadsAt text ((Offsets.ofTokens tokens).get i) t.text := by
  obtain ⟨hi, rfl⟩ := Array.getElem?_eq_some_iff.mp ht
  have hone : (tokens.toList.take (i + 1)).drop i = [tokens[i]] := by
    rw [List.drop_take, Nat.add_sub_cancel_left]
    simp [List.drop_eq_getElem_cons, hi]
  have hreads := (h.reads_between (Nat.le_succ i)).1
  rw [hone, List.flatMap_singleton, String.ofList_toList] at hreads
  exact hreads

end Faithful

/-- The bytes of a text between the start of a token and that of the next are its text. -/
theorem tokenize_extract [Alphabet] {text : String} {xmlLiterals : Bool} {i : Nat} {t : Token}
    (h : (tokenize text xmlLiterals).tokens[i]? = some t) :
    text.toByteArray.extract (Offsets.get (.ofTokens (tokenize text xmlLiterals).tokens) i)
      (Offsets.get (.ofTokens (tokenize text xmlLiterals).tokens) (i + 1)) =
      t.text.toByteArray := by
  have hstop : Offsets.get (.ofTokens (tokenize text xmlLiterals).tokens) (i + 1) =
      Offsets.get (.ofTokens (tokenize text xmlLiterals).tokens) i + t.text.utf8ByteSize :=
    TokenTable.offset_succ h
  rw [hstop]
  exact ((tokenize_faithful text xmlLiterals).readsAt h).extract

/-- The bytes that a token of a text takes, the line and column that the scan has given it, and the
places that offsets and line map find all agree; and all three know how long the text is. -/
theorem token_places_agree [Alphabet] (text : String) (xmlLiterals : Bool) :
    let tokens := (tokenize text xmlLiterals).tokens
    let offsets := Offsets.ofTokens tokens
    let lines := LineMap.ofText text
    (∀ (i : Nat) (t : Token), tokens[i]? = some t →
      text.toByteArray.extract (offsets.get i) (offsets.get (i + 1)) = t.text.toByteArray ∧
        t.StandsAt lines (offsets.get i)) ∧
      offsets.sourceLength = lines.length ∧ lines.length = text.utf8ByteSize := by
  intro tokens offsets lines
  refine ⟨fun i t ht => ⟨tokenize_extract ht, tokenize_standsAt ht⟩, ?_, rfl⟩
  have hall : tokens.toList.flatMap (·.text.toList) = text.toList := tokenize_texts text xmlLiterals
  rw [Offsets.sourceLength_ofTokens, totalLength_eq, hall, String.ofList_toList]
  rfl

/-- A pair of carriage return and line feed inside a comment ends one line, and so does the carriage
return after it. -/
theorem token_places_agree_comment : ∃ t : Token, t.text = "b" ∧
    "/*\r\n*/\rb".toByteArray.extract 7 8 = t.text.toByteArray ∧
      t.StandsAt (.ofText "/*\r\n*/\rb") 7 ∧ t.line = 3 := by
  obtain ⟨hextract, hstands⟩ := (token_places_agree "/*\r\n*/\rb" true).1 2
    ⟨.identifier, "b", 3, 0, 2, true, false⟩ (by rfl)
  exact ⟨_, rfl, hextract, hstands, rfl⟩

end ScriptTree
