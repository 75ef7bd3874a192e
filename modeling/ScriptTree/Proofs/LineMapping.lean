import Mathlib.Order.Bounds.Basic
import ScriptTree.Proofs.EncodedText
import ScriptTree.Proofs.TokenPlaces

/-!
Lines and positions. A line map is made by characters, but where its lines begin can be read off the
bytes of the text: after a line feed, and after a carriage return that no line feed follows. A
position belongs to the last line that begins at or before it, so that positions and pairs of line
and column are turned into each other and back.
-/
namespace ScriptTree

/-! Line ends among the bytes of a text. -/

/-- Byte `i` ends a line: a line feed, or a carriage return that no line feed follows. -/
def EndsLineAt (bytes : List UInt8) (i : Nat) : Prop :=
  bytes[i]? = some 10 ∨ bytes[i]? = some 13 ∧ bytes[i + 1]? ≠ some 10

theorem toByteArray_toList (text : String) :
    text.toByteArray.data.toList = encoded text.toList := by
  conv_lhs => rw [← String.ofList_toList (s := text), String.toByteArray_ofList]
  rw [List.utf8Encode, List.data_toByteArray]
  rfl

/-- A line that ends with the first byte of a text ends with its first character. -/
theorem endsLineAt_zero (c : Char) (rest : List Char) :
    EndsLineAt (encoded (c :: rest)) 0 ↔ endsLine c rest.head? = true := by
  have hfeed (text : List Char) : (encoded text)[0]? = some 10 ↔ text.head? = some '\n' :=
    encoded_head?_eq_iff (a := '\n') (by decide) text
  have hreturn : (encoded (c :: rest))[0]? = some 13 ↔ some c = some '\r' :=
    encoded_head?_eq_iff (a := '\r') (by decide) (c :: rest)
  have hnext (h : c = '\r') : (encoded (c :: rest))[1]? = (encoded rest)[0]? := by
    rw [encoded_cons, (utf8EncodeChar_small (by rw [h]; decide)).2]
    rfl
  rw [EndsLineAt, hfeed, hreturn, endsLine, List.head?_cons, Option.some_inj, Option.some_inj]
  simp only [Bool.or_eq_true, Bool.and_eq_true, beq_iff_eq, bne_iff_ne]
  refine or_congr_right (and_congr_right fun h => ?_)
  rw [hnext h, ne_eq, hfeed]

/-- A line that ends with a later byte of the first character: there is none. -/
theorem not_endsLineAt_inside {c : Char} {rest : List Char} {i : Nat} (hpos : 0 < i)
    (hi : i < c.utf8Size) : ¬EndsLineAt (encoded (c :: rest)) i := by
  have hc : 128 ≤ c.toNat := by
    by_contra hsmall
    have := (utf8EncodeChar_small (Nat.lt_of_not_le hsmall)).1
    omega
  have hbyte {b : UInt8} (h : (encoded (c :: rest))[i]? = some b) : 128 ≤ b.toNat := by
    rw [encoded_cons, List.getElem?_append_left (by rwa [String.length_utf8EncodeChar])] at h
    exact le_of_mem_utf8EncodeChar hc (List.mem_of_getElem? h)
  rintro (h | ⟨h, -⟩)
  · exact absurd (hbyte h) (by decide)
  · exact absurd (hbyte h) (by decide)

theorem endsLineAt_add_utf8Size (c : Char) (rest : List Char) (i : Nat) :
    EndsLineAt (encoded (c :: rest)) (c.utf8Size + i) ↔ EndsLineAt (encoded rest) i := by
  have hskip (j : Nat) : (encoded (c :: rest))[c.utf8Size + j]? = (encoded rest)[j]? := by
    rw [encoded_cons, ← String.length_utf8EncodeChar c,
      List.getElem?_append_right (Nat.le_add_right _ _), Nat.add_sub_cancel_left]
  rw [EndsLineAt, EndsLineAt, Nat.add_assoc, hskip, hskip]

theorem utf8Size_of_endsLine {c : Char} {next : Option Char} (h : endsLine c next = true) :
    c.utf8Size = 1 := by
  simp only [endsLine, Bool.or_eq_true, Bool.and_eq_true, beq_iff_eq] at h
  rcases h with rfl | ⟨rfl, -⟩ <;> rfl

/-- The lines that begin inside a text begin right after the bytes that end one. -/
theorem mem_laterLineStarts_iff {pos start : Nat} {text : List Char} :
    start ∈ laterLineStarts pos text ↔ ∃ i, start = pos + i + 1 ∧ EndsLineAt (encoded text) i := by
  induction text generalizing pos with
  | nil => simp [laterLineStarts, encoded, EndsLineAt]
  | cons c rest ih =>
    have hsize := c.utf8Size_pos
    -- The byte that ends a line is the first one, or comes after the first character.
    have hcases : (∃ i, start = pos + i + 1 ∧ EndsLineAt (encoded (c :: rest)) i) ↔
        (endsLine c rest.head? = true ∧ start = pos + c.utf8Size) ∨
          ∃ i, start = pos + c.utf8Size + i + 1 ∧ EndsLineAt (encoded rest) i := by
      constructor
      · rintro ⟨i, rfl, h⟩
        rcases Nat.lt_or_ge i c.utf8Size with hi | hi
        · obtain rfl : i = 0 := by
            by_contra hzero
            exact not_endsLineAt_inside (Nat.pos_of_ne_zero hzero) hi h
          have hends := (endsLineAt_zero c rest).mp h
          exact .inl ⟨hends, by rw [utf8Size_of_endsLine hends]⟩
        · obtain ⟨j, rfl⟩ := Nat.exists_eq_add_of_le hi
          exact .inr ⟨j, by omega, (endsLineAt_add_utf8Size c rest j).mp h⟩
      · rintro (⟨hends, rfl⟩ | ⟨i, rfl, h⟩)
        · exact ⟨0, by rw [utf8Size_of_endsLine hends], (endsLineAt_zero c rest).mpr hends⟩
        · exact ⟨c.utf8Size + i, by omega, (endsLineAt_add_utf8Size c rest i).mpr h⟩
    rw [hcases, ← ih, laterLineStarts]
    split
    · rename_i hends
      simp [hends]
    · rename_i hends
      simp [hends]

/-! Maps with lines in order. -/

/-- In a list in order the first members, up to a bound, are those that do not go beyond it. -/
theorem lt_length_takeWhile_iff {starts : List Nat} (h : starts.Pairwise (· < ·)) (pos i : Nat) :
    i < (starts.takeWhile (· ≤ pos)).length ↔ ∃ start, starts[i]? = some start ∧ start ≤ pos := by
  induction starts generalizing i with
  | nil => simp
  | cons a rest ih =>
    obtain ⟨hfirst, hrest⟩ := List.pairwise_cons.mp h
    rw [List.takeWhile_cons]
    by_cases ha : a ≤ pos
    · cases i with
      | zero => simp [ha]
      | succ i => simpa [ha] using ih hrest i
    · have hbeyond : ¬∃ start, (a :: rest)[i]? = some start ∧ start ≤ pos := by
        rintro ⟨start, hstart, hle⟩
        rcases List.mem_cons.mp (List.mem_of_getElem? hstart) with rfl | hmem
        · exact ha hle
        · exact ha (Nat.le_trans (Nat.le_of_lt (hfirst start hmem)) hle)
      simpa [ha] using hbeyond

theorem pairwise_laterLineStarts (pos : Nat) (text : List Char) :
    (laterLineStarts pos text).Pairwise (· < ·) := by
  induction text generalizing pos with
  | nil => exact .nil
  | cons c rest ih =>
    rw [laterLineStarts]
    split
    · exact List.pairwise_cons.mpr ⟨fun _ h => lt_of_mem_laterLineStarts h, ih _⟩
    · exact ih _

namespace LineMap

/-- The lines of a map begin in order, the first one at the beginning, and all within the text. -/
structure IsOrdered (m : LineMap) : Prop where
  from_zero : m.starts.head? = some 0
  increasing : m.starts.Pairwise (· < ·)
  within : ∀ start ∈ m.starts, start ≤ m.length

theorem isOrdered_ofText (text : String) : (ofText text).IsOrdered where
  from_zero := rfl
  increasing :=
    List.pairwise_cons.mpr ⟨fun _ h => lt_of_mem_laterLineStarts h, pairwise_laterLineStarts _ _⟩
  within start h := by
    rcases List.mem_cons.mp h with rfl | h
    · exact Nat.zero_le _
    · obtain ⟨i, rfl, hends⟩ := mem_laterLineStarts_iff.mp h
      have hi : i < (encoded text.toList).length := by
        rcases hends with hbyte | ⟨hbyte, -⟩ <;> exact (List.getElem?_eq_some_iff.mp hbyte).1
      rw [← toByteArray_toList, Array.length_toList] at hi
      rw [Nat.zero_add]
      exact hi

variable {m : LineMap}

theorem lineStart_eq {line start : Nat} (h : m.starts[line]? = some start) :
    m.lineStart line = start := by
  rw [lineStart, h, Option.getD_some]

/-- A position belongs to the last line that begins at or before it. -/
theorem IsOrdered.lineOf_eq_iff (h : m.IsOrdered) (pos line : Nat) :
    m.lineOf pos = line ↔ IsGreatest {l | l < m.lineCount ∧ m.lineStart l ≤ pos} line := by
  have hmem (l : Nat) : l < (m.starts.takeWhile (· ≤ pos)).length ↔
      l < m.lineCount ∧ m.lineStart l ≤ pos := by
    rw [lt_length_takeWhile_iff h.increasing]
    constructor
    · rintro ⟨start, hstart, hle⟩
      rw [lineStart_eq hstart]
      exact ⟨(List.getElem?_eq_some_iff.mp hstart).1, hle⟩
    · rintro ⟨hlt, hle⟩
      have hstart : m.starts[l]? = some m.starts[l] := List.getElem?_eq_getElem hlt
      rw [lineStart_eq hstart] at hle
      exact ⟨_, hstart, hle⟩
  have hpos : 0 < (m.starts.takeWhile (· ≤ pos)).length := by
    refine (lt_length_takeWhile_iff h.increasing pos 0).mpr ⟨0, ?_, Nat.zero_le pos⟩
    rw [← List.head?_eq_getElem?]
    exact h.from_zero
  have hgreatest : IsGreatest {l | l < m.lineCount ∧ m.lineStart l ≤ pos} (m.lineOf pos) := by
    refine ⟨(hmem _).mp (Nat.sub_one_lt_of_lt hpos), fun l hl => ?_⟩
    exact Nat.le_sub_one_of_lt ((hmem l).mpr hl)
  exact ⟨fun heq => heq ▸ hgreatest, fun hline => hgreatest.unique hline⟩

/-- What a search for `pos` among starts of lines comes to: a hit at place `i`, or the place `i`
between those before `pos` and those after it. -/
def SearchEnds (starts : List Nat) (pos : Nat) (hit : Bool) (i : Nat) : Prop :=
  if hit then starts[i]? = some pos
  else i ≤ starts.length ∧ (∀ start ∈ starts.take i, start < pos) ∧
    ∀ start ∈ starts.drop i, pos < start

/-- A search ends at the line of the position, or right after it when the position is no start. -/
theorem IsOrdered.lineOf_of_searchEnds (h : m.IsOrdered) {pos i : Nat} {hit : Bool}
    (hends : SearchEnds m.starts pos hit i) : m.lineOf pos = if hit then i else i - 1 := by
  rw [h.lineOf_eq_iff]
  cases hit with
  | true =>
    have hi : m.starts[i]? = some pos := hends
    refine ⟨⟨(List.getElem?_eq_some_iff.mp hi).1, Nat.le_of_eq (lineStart_eq hi)⟩, ?_⟩
    rintro l ⟨hl, hle⟩
    by_contra hafter
    obtain ⟨hlt, heq⟩ := List.getElem?_eq_some_iff.mp hi
    have hmore := List.pairwise_iff_getElem.mp h.increasing i l hlt hl (Nat.lt_of_not_le hafter)
    rw [lineStart_eq (List.getElem?_eq_getElem hl)] at hle
    omega
  | false =>
    obtain ⟨hlength, hbefore, hafter⟩ := hends
    have hmiss {l : Nat} (hl : l < m.lineCount) : l < i ↔ m.lineStart l ≤ pos := by
      have hstart : m.starts[l]? = some m.starts[l] := List.getElem?_eq_getElem hl
      rw [lineStart_eq hstart]
      refine ⟨fun hli => ?_, fun hle => ?_⟩
      · rw [← List.getElem?_take_of_lt hli] at hstart
        exact Nat.le_of_lt (hbefore _ (List.mem_of_getElem? hstart))
      · by_contra hil
        obtain ⟨j, rfl⟩ := Nat.exists_eq_add_of_le (Nat.le_of_not_lt hil)
        rw [← List.getElem?_drop] at hstart
        exact Nat.not_le_of_lt (hafter _ (List.mem_of_getElem? hstart)) hle
    have hzero : m.starts[0]? = some 0 := by
      rw [← List.head?_eq_getElem?]
      exact h.from_zero
    have hcount : 0 < m.lineCount := (List.getElem?_eq_some_iff.mp hzero).1
    have hpos : 0 < i := (hmiss hcount).mpr (by rw [lineStart_eq hzero]; exact Nat.zero_le pos)
    have hlast : i - 1 < m.lineCount := Nat.lt_of_lt_of_le (Nat.sub_one_lt_of_lt hpos) hlength
    refine ⟨⟨hlast, (hmiss hlast).mp (Nat.sub_one_lt_of_lt hpos)⟩, ?_⟩
    rintro l ⟨hl, hle⟩
    exact Nat.le_sub_one_of_lt ((hmiss hl).mpr hle)

/-- A column lies in a line if it comes before the next line, or in the last line before or at the
end of the text. -/
def HasColumn (m : LineMap) (line column : Nat) : Prop :=
  if line + 1 < m.lineCount then m.lineStart line + column < m.lineStart (line + 1)
  else m.lineStart line + column ≤ m.length

instance (m : LineMap) (line column : Nat) : Decidable (m.HasColumn line column) :=
  inferInstanceAs (Decidable (if line + 1 < m.lineCount then _ < _ else _ ≤ _))

theorem IsOrdered.lineStart_le_lineStart (h : m.IsOrdered) {line later : Nat} (hle : line ≤ later)
    (hlater : later < m.lineCount) : m.lineStart line ≤ m.lineStart later := by
  have hline : line < m.lineCount := Nat.lt_of_le_of_lt hle hlater
  rw [lineStart_eq (List.getElem?_eq_getElem hline), lineStart_eq (List.getElem?_eq_getElem hlater)]
  rcases Nat.lt_or_eq_of_le hle with hlt | rfl
  · exact Nat.le_of_lt (List.pairwise_iff_getElem.mp h.increasing line later hline hlater hlt)
  · exact Nat.le_refl _

/-- The position at a line and column of the text belongs to that line. -/
theorem IsOrdered.lineOf_lineStart_add (h : m.IsOrdered) {line column : Nat}
    (hline : line < m.lineCount) (hcolumn : m.HasColumn line column) :
    m.lineOf (m.lineStart line + column) = line := by
  refine (h.lineOf_eq_iff _ _).mpr ⟨⟨hline, Nat.le_add_right _ _⟩, ?_⟩
  rintro later ⟨hlater, hle⟩
  by_contra hafter
  have hnext : line + 1 ≤ later := Nat.lt_of_not_le hafter
  rw [HasColumn, if_pos (Nat.lt_of_le_of_lt hnext hlater)] at hcolumn
  have hstart := h.lineStart_le_lineStart hnext hlater
  omega

theorem IsOrdered.lineStart_add_le_length (h : m.IsOrdered) {line column : Nat}
    (hcolumn : m.HasColumn line column) : m.lineStart line + column ≤ m.length := by
  unfold HasColumn at hcolumn
  split at hcolumn
  · rename_i hnext
    have hwithin := h.within _ (List.getElem_mem hnext)
    rw [lineStart_eq (List.getElem?_eq_getElem hnext)] at hcolumn
    omega
  · exact hcolumn

theorem IsOrdered.offsetOf_locate (h : m.IsOrdered) (pos : Nat) :
    m.offsetOf (m.locate pos).line (m.locate pos).column = min pos m.length := by
  have hle := ((h.lineOf_eq_iff pos _).mp rfl).1.2
  rw [locate, offsetOf, Nat.add_sub_cancel' hle]

theorem IsOrdered.locate_offsetOf (h : m.IsOrdered) {line column : Nat}
    (hline : line < m.lineCount) (hcolumn : m.HasColumn line column) :
    m.locate (m.offsetOf line column) = ⟨line, column⟩ := by
  rw [offsetOf, Nat.min_eq_left (h.lineStart_add_le_length hcolumn), locate,
    h.lineOf_lineStart_add hline hcolumn, Nat.add_sub_cancel_left]

/-- The lines of a text begin in order at its beginning and after the bytes that end a line. A
position belongs to the last line that begins at or before it, where a search for it ends or right
before; its line and column lead back to it, or to the end of the text from beyond that. A line and
a column that lies in it lead to a position with that line and column. -/
theorem ofText_round_trip (text : String) :
    let m := ofText text
    (m.starts.Pairwise (· < ·) ∧ m.starts.head? = some 0 ∧ ∀ start, 0 < start →
      (start ∈ m.starts ↔ EndsLineAt text.toByteArray.data.toList (start - 1))) ∧
    (∀ pos, IsGreatest {line | line < m.lineCount ∧ m.lineStart line ≤ pos} (m.lineOf pos) ∧
      (∀ hit i, SearchEnds m.starts pos hit i → m.lineOf pos = if hit then i else i - 1) ∧
      m.offsetOf (m.locate pos).line (m.locate pos).column = min pos text.utf8ByteSize) ∧
    ∀ line column, line < m.lineCount → m.HasColumn line column →
      m.locate (m.offsetOf line column) = ⟨line, column⟩ := by
  intro m
  have h : m.IsOrdered := isOrdered_ofText text
  refine ⟨⟨h.increasing, h.from_zero, fun start hpos => ?_⟩, fun pos =>
    ⟨?_, fun hit i => h.lineOf_of_searchEnds, h.offsetOf_locate pos⟩,
    fun line column => h.locate_offsetOf⟩
  · obtain ⟨i, rfl⟩ : ∃ i, start = i + 1 := ⟨start - 1, (Nat.sub_add_cancel hpos).symm⟩
    have hlater : i + 1 ∈ m.starts ↔ i + 1 ∈ laterLineStarts 0 text.toList := by
      simp [m, ofText]
    rw [hlater, mem_laterLineStarts_iff, toByteArray_toList]
    simp
  · exact (h.lineOf_eq_iff pos _).mp rfl

/-- Three lines, of which the first ends with a pair and the second with a carriage return alone. -/
theorem ofText_round_trip_pair :
    let m := ofText "a\r\nb\rc"
    m.lineCount = 3 ∧ (2 ∉ m.starts ∧ 3 ∈ m.starts) ∧
      (1 < m.lineCount ∧ m.HasColumn 1 1) ∧ m.locate (m.offsetOf 1 1) = ⟨1, 1⟩ := by
  intro m
  have hcolumn : 1 < m.lineCount ∧ m.HasColumn 1 1 := by decide
  exact ⟨by decide, by decide, hcolumn, (ofText_round_trip _).2.2 1 1 hcolumn.1 hcolumn.2⟩

end LineMap
end ScriptTree
