import ScriptTree.Kind.Spelling
import ScriptTree.Scanner.Operator

/-!
The tables of spellings and the scanner. A mark that the scanner finds by looking ahead is written
as the table of punctuation has it, and no mark of that table with which the text begins is longer.
A word is a keyword just if the table of keywords has it.
-/
namespace ScriptTree

namespace Kind

/-- A word has the kind of the keyword that is written like it. -/
theorem ofKeyword?_eq_some_iff {word : String} {k : Kind} :
    ofKeyword? word = some k ↔ k.keywordText? = some word := by
  constructor
  · intro h
    unfold ofKeyword? at h
    split at h <;> cases h <;> rfl
  · intro h
    cases k <;> cases h <;> rfl

theorem ofKeyword?_eq_none_iff {word : String} :
    ofKeyword? word = none ↔ ∀ k : Kind, k.keywordText? ≠ some word := by
  constructor
  · intro h k hk
    cases h.symm.trans (ofKeyword?_eq_some_iff.mpr hk)
  · intro h
    cases hword : ofKeyword? word with
    | none => rfl
    | some k => exact absurd (ofKeyword?_eq_some_iff.mp hword) (h k)

theorem punctuationText?_length_pos {k : Kind} {mark : String}
    (h : k.punctuationText? = some mark) : 0 < mark.toList.length := by
  cases k <;> cases h <;> decide

end Kind

namespace Operator
variable {c d : Char} {rest text : List Char}

/-- The mark `op` of the table stands at the front of `text`, with that number of characters. -/
def Begins (text : List Char) (op : Kind × Nat) : Prop :=
  ∃ mark, op.1.punctuationText? = some mark ∧ mark.toList <+: text ∧ mark.toList.length = op.2

theorem begins_one {k : Kind} (h : k.punctuationText? = some (String.ofList [c])) :
    Begins (c :: rest) (k, 1) :=
  ⟨_, h, ⟨rest, by simp⟩, by simp⟩

theorem begins_two {k : Kind} (hd : (c :: rest)[1]? = some d)
    (h : k.punctuationText? = some (String.ofList [c, d])) : Begins (c :: rest) (k, 2) := by
  obtain ⟨tail, rfl⟩ : ∃ tail, rest = d :: tail := by
    cases rest with
    | nil => cases hd
    | cons e tail => exact ⟨tail, by rw [Option.some.inj hd]⟩
  exact ⟨_, h, ⟨tail, by simp⟩, by simp⟩

theorem begins_of_startsWith {k : Kind} {mark : String} {n : Nat}
    (hmark : startsWith text mark = true) (h : k.punctuationText? = some mark)
    (hn : mark.toList.length = n) : Begins text (k, n) :=
  ⟨mark, h, List.isPrefixOf_iff_prefix.mp hmark, hn⟩

/-! The mark that each function finds is there. -/

theorem withEquals_begins {single assign : Kind}
    (hsingle : single.punctuationText? = some (String.ofList [c]))
    (hassign : assign.punctuationText? = some (String.ofList [c, '='])) :
    Begins (c :: rest) (withEquals single assign (c :: rest)) := by
  unfold withEquals
  split
  · rename_i h
    exact begins_two (beq_iff_eq.mp h) hassign
  · exact begins_one hsingle

theorem doubled_begins {single assign twice : Kind}
    (hsingle : single.punctuationText? = some (String.ofList [c]))
    (hassign : assign.punctuationText? = some (String.ofList [c, '=']))
    (htwice : twice.punctuationText? = some (String.ofList [c, c])) :
    Begins (c :: rest) (doubled c single assign twice (c :: rest)) := by
  unfold doubled
  split
  · rename_i h
    exact begins_two (beq_iff_eq.mp h) htwice
  · exact withEquals_begins hsingle hassign

theorem dot_begins (rest : List Char) : Begins ('.' :: rest) (dot ('.' :: rest)) := by
  unfold dot
  split
  · exact begins_two (by assumption) rfl
  · exact begins_one rfl

theorem colon_begins (rest : List Char) : Begins (':' :: rest) (colon (':' :: rest)) := by
  unfold colon
  split
  · rename_i h
    exact begins_two (beq_iff_eq.mp h) rfl
  · exact begins_one rfl

theorem slash_begins (rest : List Char) : Begins ('/' :: rest) (slash ('/' :: rest)) := by
  unfold slash
  split
  · exact begins_two (by assumption) rfl
  · exact begins_one rfl

theorem lessThan_begins (rest : List Char) : Begins ('<' :: rest) (lessThan ('<' :: rest)) := by
  unfold lessThan
  split
  · rename_i hfirst hsecond
    match rest, hfirst, hsecond with
    | _ :: _ :: tail, rfl, rfl => exact ⟨"<<=", rfl, ⟨tail, rfl⟩, rfl⟩
  · exact begins_two (by assumption) rfl
  · exact begins_two (by assumption) rfl
  · exact begins_one rfl

theorem greaterThan_begins (rest : List Char) :
    Begins ('>' :: rest) (greaterThan ('>' :: rest)) := by
  unfold greaterThan
  split
  · exact begins_of_startsWith (by assumption) rfl rfl
  split
  · exact begins_of_startsWith (by assumption) rfl rfl
  split
  · exact begins_of_startsWith (by assumption) rfl rfl
  split
  · exact begins_of_startsWith (by assumption) rfl rfl
  split
  · exact begins_of_startsWith (by assumption) rfl rfl
  · exact begins_one rfl

theorem equals_begins (rest : List Char) : Begins ('=' :: rest) (equals ('=' :: rest)) := by
  unfold equals
  split
  · exact begins_of_startsWith (by assumption) rfl rfl
  split
  · exact begins_of_startsWith (by assumption) rfl rfl
  · exact begins_one rfl

theorem exclamation_begins (rest : List Char) :
    Begins ('!' :: rest) (exclamation ('!' :: rest)) := by
  unfold exclamation
  split
  · exact begins_of_startsWith (by assumption) rfl rfl
  split
  · exact begins_of_startsWith (by assumption) rfl rfl
  · exact begins_one rfl

theorem plus_begins (rest : List Char) : Begins ('+' :: rest) (plus ('+' :: rest)) := by
  unfold plus
  split
  · exact begins_two (by assumption) rfl
  · exact begins_two (by assumption) rfl
  · exact begins_one rfl

theorem minus_begins (rest : List Char) : Begins ('-' :: rest) (minus ('-' :: rest)) := by
  unfold minus
  split
  · exact begins_two (by assumption) rfl
  · exact begins_two (by assumption) rfl
  · exact begins_one rfl

/-- The mark that the scanner finds is there. -/
theorem read?_begins {op : Kind × Nat} (h : read? c (c :: rest) = some op) :
    Begins (c :: rest) op := by
  unfold read? at h
  split at h <;> cases h
  all_goals first
    | exact begins_one rfl
    | exact withEquals_begins rfl rfl
    | exact doubled_begins rfl rfl rfl
    | simp only [dot_begins, colon_begins, slash_begins, lessThan_begins, greaterThan_begins,
        equals_begins, exclamation_begins, plus_begins, minus_begins]

/-- The mark that the scanner finds has a character at least. -/
theorem length_pos {op : Kind × Nat} (h : Begins text op) : 0 < op.2 := by
  obtain ⟨mark, hmark, -, hlength⟩ := h
  exact hlength ▸ Kind.punctuationText?_length_pos hmark

/-! Where a mark of the table stands, the scanner finds one that is not shorter. Most are found at
the first glance; those below begin longer ones. -/

theorem two_le_lessThan (tail : List Char) : 2 ≤ (lessThan ('<' :: '<' :: tail)).2 := by
  unfold lessThan
  split
  · decide
  · decide
  · decide
  · rename_i hnone _ _
    exact absurd rfl hnone

theorem two_le_greaterThan (tail : List Char) : 2 ≤ (greaterThan ('>' :: '>' :: tail)).2 := by
  unfold greaterThan
  split
  · decide
  split
  · decide
  split
  · decide
  exact Nat.le_of_eq (by rw [if_pos (by rfl)])

theorem three_le_greaterThan (tail : List Char) :
    3 ≤ (greaterThan ('>' :: '>' :: '>' :: tail)).2 := by
  unfold greaterThan
  split
  · decide
  exact Nat.le_of_eq (by rw [if_pos (by rfl)])

theorem two_le_equals (tail : List Char) : 2 ≤ (equals ('=' :: '=' :: tail)).2 := by
  unfold equals
  split
  · decide
  exact Nat.le_of_eq (by rw [if_pos (by rfl)])

theorem two_le_exclamation (tail : List Char) :
    2 ≤ (exclamation ('!' :: '=' :: tail)).2 := by
  unfold exclamation
  split
  · decide
  exact Nat.le_of_eq (by rw [if_pos (by rfl)])

theorem exists_read? {k : Kind} {mark : String} (hmark : k.punctuationText? = some mark)
    (hbegins : mark.toList <+: text) :
    ∃ c rest op, text = c :: rest ∧ read? c text = some op ∧ mark.toList.length ≤ op.2 := by
  obtain ⟨tail, rfl⟩ := hbegins
  have hpos {c : Char} {rest : List Char} {op : Kind × Nat} (hc : c :: rest = mark.toList ++ tail)
      (hop : read? c (c :: rest) = some op) (hone : mark.toList.length = 1) :
      mark.toList.length ≤ op.2 := by
    rw [hone]
    exact length_pos (read?_begins hop)
  cases k <;> cases hmark
  all_goals refine ⟨_, _, _, rfl, rfl, ?_⟩
  case lessThanLessThan => exact two_le_lessThan tail
  case greaterThanGreaterThan => exact two_le_greaterThan tail
  case greaterThanGreaterThanGreaterThan => exact three_le_greaterThan tail
  case equalsEquals => exact two_le_equals tail
  case exclamationEquals => exact two_le_exclamation tail
  all_goals first
    | exact Nat.le_refl _
    | exact hpos rfl rfl rfl

/-! So the mark found is the longest one of the table. -/

/-- The text of a mark shows its kind. -/
theorem punctuationText?_injective {k k' : Kind} {mark : String}
    (h : k.punctuationText? = some mark) (h' : k'.punctuationText? = some mark) : k = k' := by
  have hread {k : Kind} (h : k.punctuationText? = some mark) : ∃ c rest, mark.toList = c :: rest ∧
      read? c (c :: rest) = some (k, mark.toList.length) := by
    cases k <;> cases h <;> exact ⟨_, _, rfl, rfl⟩
  obtain ⟨c, rest, htext, hk⟩ := hread h
  obtain ⟨c', rest', htext', hk'⟩ := hread h'
  obtain ⟨rfl, rfl⟩ := List.cons.inj (htext.symm.trans htext')
  cases hk.symm.trans hk'
  rfl

theorem begins_unique {op op' : Kind × Nat} (h : Begins text op) (h' : Begins text op')
    (hlength : op.2 = op'.2) : op = op' := by
  obtain ⟨mark, hmark, hbegins, hn⟩ := h
  obtain ⟨mark', hmark', hbegins', hn'⟩ := h'
  have hsame : mark.toList = mark'.toList := by
    rw [List.prefix_iff_eq_take.mp hbegins, List.prefix_iff_eq_take.mp hbegins', hn, hn', hlength]
  obtain rfl := String.toList_inj.mp hsame
  exact Prod.ext (punctuationText?_injective hmark hmark') hlength

/-- The scanner finds a mark just if it is there and none there is longer. -/
theorem read?_eq_some_iff {op : Kind × Nat} : read? c (c :: rest) = some op ↔
    Begins (c :: rest) op ∧ ∀ (k : Kind) (mark : String), k.punctuationText? = some mark →
      mark.toList <+: c :: rest → mark.toList.length ≤ op.2 := by
  constructor
  · intro h
    refine ⟨read?_begins h, fun k mark hmark hbegins => ?_⟩
    obtain ⟨_, _, op', hcons, hop', hle⟩ := exists_read? hmark hbegins
    obtain ⟨rfl, -⟩ := List.cons.inj hcons
    cases h.symm.trans hop'
    exact hle
  · rintro ⟨hbegins, hlongest⟩
    have ⟨mark, hmark, hprefix, hlength⟩ := hbegins
    obtain ⟨_, _, op', hcons, hop', hle⟩ := exists_read? hmark hprefix
    obtain ⟨rfl, -⟩ := List.cons.inj hcons
    have hbegins' := read?_begins hop'
    have ⟨mark', hmark', hprefix', hlength'⟩ := hbegins'
    have hle' := hlongest _ mark' hmark' hprefix'
    rw [begins_unique hbegins hbegins' (by omega)]
    exact hop'

/-- Which mark is found depends only on the marks of the table with which the text begins. -/
theorem read?_congr {rest' : List Char}
    (h : ∀ (k : Kind) (mark : String), k.punctuationText? = some mark →
      (mark.toList <+: c :: rest' ↔ mark.toList <+: c :: rest)) :
    read? c (c :: rest') = read? c (c :: rest) := by
  apply Option.ext
  intro op
  rw [read?_eq_some_iff, read?_eq_some_iff]
  refine and_congr (exists_congr fun mark => ?_) ?_
  · exact and_congr_right fun hmark => and_congr_left fun _ => h _ mark hmark
  · exact forall_congr' fun k => forall_congr' fun mark => forall_congr' fun hmark =>
      imp_congr_left (h k mark hmark)

end Operator
end ScriptTree
