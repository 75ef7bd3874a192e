import Mathlib.Algebra.GroupWithZero.Nat
import Mathlib.Data.List.Basic
import ScriptTree.Scanner.Markup
import ScriptTree.Text.Search

/-!
A text and its bytes. A slice of a text is given exactly where the byte it is asked for lies between
characters, and a mark of ASCII characters is found among the bytes of a text where it is found
among the characters: the bytes of other characters are none of its.
-/
namespace ScriptTree

/-- The number of bytes of characters. -/
def byteLength (text : List Char) : Nat := (text.map Char.utf8Size).sum

@[simp] theorem byteLength_nil : byteLength [] = 0 := rfl

@[simp] theorem byteLength_cons (c : Char) (rest : List Char) :
    byteLength (c :: rest) = c.utf8Size + byteLength rest := by
  simp [byteLength]

@[simp] theorem byteLength_append (a b : List Char) :
    byteLength (a ++ b) = byteLength a + byteLength b := by
  simp [byteLength]

theorem byteLength_take_add_drop (text : List Char) (n : Nat) :
    byteLength (text.take n) + byteLength (text.drop n) = byteLength text := by
  rw [← byteLength_append, List.take_append_drop]

theorem byteLength_pos {text : List Char} (h : text ≠ []) : 0 < byteLength text := by
  cases text with
  | nil => exact absurd rfl h
  | cons c rest => exact Nat.lt_of_lt_of_le c.utf8Size_pos (by simp)

theorem utf8ByteSize_ofList (text : List Char) :
    (String.ofList text).utf8ByteSize = byteLength text := by
  induction text with
  | nil => rfl
  | cons c rest ih =>
    rw [← List.singleton_append, String.ofList_append, String.utf8ByteSize_append, ih,
      ← String.singleton_eq_ofList, String.utf8ByteSize_singleton, List.singleton_append,
      byteLength_cons]

/-- `pos` lies between two characters of `text`, or at one of its ends. -/
def IsBoundary (text : String) (pos : Nat) : Prop := String.Pos.Raw.IsValid text ⟨pos⟩

theorem isBoundary_iff {text : String} {pos : Nat} :
    IsBoundary text pos ↔
      ∃ before after, before ++ after = text.toList ∧ byteLength before = pos := by
  rw [IsBoundary, String.Pos.Raw.isValid_iff_exists_append]
  constructor
  · rintro ⟨before, after, rfl, hpos⟩
    refine ⟨before.toList, after.toList, String.toList_append.symm, ?_⟩
    rw [← utf8ByteSize_ofList, String.ofList_toList]
    exact (congrArg String.Pos.Raw.byteIdx hpos).symm
  · rintro ⟨before, after, happend, rfl⟩
    refine ⟨String.ofList before, String.ofList after, ?_, ?_⟩
    · rw [← String.ofList_append, happend, String.ofList_toList]
    · rw [← utf8ByteSize_ofList]
      rfl

/-! Slices. -/

theorem sliceFrom?_zero (text : List Char) : sliceFrom? text 0 = some text := by
  cases text <;> rfl

theorem sliceTo?_zero (text : List Char) : sliceTo? text 0 = some [] := by
  cases text <;> rfl

/-- A slice that goes on after the first character. -/
theorem sliceFrom?_add (c : Char) (rest : List Char) (n : Nat) :
    sliceFrom? (c :: rest) (c.utf8Size + n) = sliceFrom? rest n := by
  obtain ⟨k, hk⟩ := Nat.exists_eq_succ_of_ne_zero (Nat.ne_of_gt c.utf8Size_pos)
  rw [hk, Nat.succ_add, sliceFrom?, hk, if_neg (by omega)]
  congr 1
  omega

theorem sliceTo?_add (c : Char) (rest : List Char) (n : Nat) :
    sliceTo? (c :: rest) (c.utf8Size + n) = (sliceTo? rest n).map (c :: ·) := by
  obtain ⟨k, hk⟩ := Nat.exists_eq_succ_of_ne_zero (Nat.ne_of_gt c.utf8Size_pos)
  rw [hk, Nat.succ_add, sliceTo?, hk, if_neg (by omega)]
  congr 2
  omega

/-- A slice is given exactly at the places between characters. -/
theorem sliceFrom?_eq_some_iff {text after : List Char} {n : Nat} :
    sliceFrom? text n = some after ↔
      ∃ before, before ++ after = text ∧ byteLength before = n := by
  constructor
  · intro h
    induction text generalizing n with
    | nil =>
      cases n with
      | zero => exact ⟨[], by simpa [sliceFrom?_zero] using h.symm, rfl⟩
      | succ n => cases h
    | cons c rest ih =>
      cases n with
      | zero => exact ⟨[], by simpa [sliceFrom?_zero] using h.symm, rfl⟩
      | succ n =>
        rw [sliceFrom?] at h
        split at h
        · cases h
        · obtain ⟨before, rfl, hlength⟩ := ih h
          exact ⟨c :: before, rfl, by rw [byteLength_cons]; omega⟩
  · rintro ⟨before, rfl, rfl⟩
    induction before with
    | nil => exact sliceFrom?_zero after
    | cons c before ih => rw [byteLength_cons, List.cons_append, sliceFrom?_add, ih]

theorem sliceFrom?_take (text : List Char) (n : Nat) :
    sliceFrom? text (byteLength (text.take n)) = some (text.drop n) :=
  sliceFrom?_eq_some_iff.mpr ⟨text.take n, List.take_append_drop n text, rfl⟩

theorem sliceTo?_take (text : List Char) (n : Nat) :
    sliceTo? text (byteLength (text.take n)) = some (text.take n) := by
  induction text generalizing n with
  | nil => simp [sliceTo?_zero]
  | cons c rest ih =>
    cases n with
    | zero => exact sliceTo?_zero _
    | succ n => rw [List.take_succ_cons, byteLength_cons, sliceTo?_add, ih, Option.map_some]

/-- The positions of a text from which a slice can be taken. -/
theorem isSome_sliceFrom?_iff {text : String} {pos : Nat} :
    (sliceFrom? text.toList pos).isSome = true ↔ IsBoundary text pos := by
  rw [Option.isSome_iff_exists, isBoundary_iff]
  simp only [sliceFrom?_eq_some_iff]
  exact exists_comm

/-- A text can be sliced up to a position where it can be sliced from there on. -/
theorem isSome_sliceTo? (text : List Char) (n : Nat) :
    (sliceTo? text n).isSome = (sliceFrom? text n).isSome := by
  induction text generalizing n with
  | nil => cases n <;> rfl
  | cons c rest ih =>
    cases n with
    | zero => rfl
    | succ n =>
      rw [sliceTo?, sliceFrom?]
      split
      · rfl
      · rw [Option.isSome_map, ih]

theorem isSome_sliceTo?_iff {text : String} {pos : Nat} :
    (sliceTo? text.toList pos).isSome = true ↔ IsBoundary text pos := by
  rw [isSome_sliceTo?, isSome_sliceFrom?_iff]

/-! The bytes of a text. -/

@[simp] theorem encoded_nil : encoded [] = [] := rfl

theorem encoded_cons (c : Char) (rest : List Char) :
    encoded (c :: rest) = String.utf8EncodeChar c ++ encoded rest := List.flatMap_cons

theorem encoded_append (a b : List Char) : encoded (a ++ b) = encoded a ++ encoded b :=
  List.flatMap_append

theorem length_encoded (text : List Char) : (encoded text).length = byteLength text := by
  induction text with
  | nil => rfl
  | cons c rest ih =>
    rw [encoded_cons, List.length_append, String.length_utf8EncodeChar, ih, byteLength_cons]

/-- A character below 128 is a single byte. -/
theorem utf8EncodeChar_small {c : Char} (h : c.toNat < 128) :
    c.utf8Size = 1 ∧ String.utf8EncodeChar c = [UInt8.ofNat c.toNat] := by
  have hsmall : c.val.toNat ≤ 127 := Nat.le_of_lt_succ h
  refine ⟨?_, ?_⟩
  · rw [Char.utf8Size_eq_one_iff, UInt32.le_iff_toNat_le]
    exact hsmall
  · rw [String.utf8EncodeChar, if_pos hsmall]
    rfl

theorem byteLength_of_small {text : List Char} (h : ∀ c ∈ text, c.toNat < 128) :
    byteLength text = text.length := by
  have hsize : text.map Char.utf8Size = text.map fun _ => 1 :=
    List.map_congr_left fun c hc => (utf8EncodeChar_small (h c hc)).1
  rw [byteLength, hsize]
  simp

/-- A byte that goes on with a character. -/
def IsContinuation (b : UInt8) : Prop := 128 ≤ b.toNat ∧ b.toNat < 192

instance (b : UInt8) : Decidable (IsContinuation b) := inferInstanceAs (Decidable (_ ∧ _))

/-- A character from 128 on has a first byte from 192 on, and other bytes after it. -/
theorem utf8EncodeChar_large {c : Char} (h : 128 ≤ c.toNat) :
    ∃ b more, String.utf8EncodeChar c = b :: more ∧ 192 ≤ b.toNat ∧
      ∀ x ∈ more, IsContinuation x := by
  have hlarge : ¬c.val.toNat ≤ 127 := Nat.not_le_of_lt h
  have hbyte {n : Nat} (hn : n < 256) : (UInt8.ofNat n).toNat = n := by
    rw [UInt8.toNat_ofNat', Nat.mod_eq_of_lt hn]
  have hcontinue (n : Nat) : IsContinuation (UInt8.ofNat (n % 64 + 128)) := by
    have : n % 64 < 64 := Nat.mod_lt n (by decide)
    rw [IsContinuation, hbyte (by omega)]
    omega
  rw [String.utf8EncodeChar, if_neg hlarge]
  split
  · refine ⟨_, _, rfl, by rw [hbyte] <;> omega, ?_⟩
    simp only [List.mem_cons, List.not_mem_nil, or_false, forall_eq, hcontinue]
  split
  · refine ⟨_, _, rfl, by rw [hbyte] <;> omega, ?_⟩
    simp only [List.mem_cons, List.not_mem_nil, or_false, forall_eq_or_imp, forall_eq, hcontinue,
      and_self]
  · refine ⟨_, _, rfl, by rw [hbyte] <;> omega, ?_⟩
    simp only [List.mem_cons, List.not_mem_nil, or_false, forall_eq_or_imp, forall_eq, hcontinue,
      and_self]

/-- The bytes of a character after the first go on with it. -/
theorem utf8EncodeChar_eq_cons (c : Char) :
    ∃ b more, String.utf8EncodeChar c = b :: more ∧ ∀ x ∈ more, IsContinuation x := by
  rcases Nat.lt_or_ge c.toNat 128 with hc | hc
  · exact ⟨_, [], (utf8EncodeChar_small hc).2, by simp⟩
  · obtain ⟨b, more, hbytes, -, hmore⟩ := utf8EncodeChar_large hc
    exact ⟨b, more, hbytes, hmore⟩

/-- The bytes of a character from 128 on are themselves from 128 on. -/
theorem le_of_mem_utf8EncodeChar {c : Char} {b : UInt8} (h : 128 ≤ c.toNat)
    (hb : b ∈ String.utf8EncodeChar c) : 128 ≤ b.toNat := by
  obtain ⟨first, more, hbytes, hfirst, hmore⟩ := utf8EncodeChar_large h
  rw [hbytes] at hb
  rcases List.mem_cons.mp hb with rfl | hb
  · omega
  · exact (hmore b hb).1

/-- A byte below 128 begins a text exactly if its character does. -/
theorem encoded_head?_eq_iff {a : Char} (ha : a.toNat < 128) (text : List Char) :
    (encoded text)[0]? = some (UInt8.ofNat a.toNat) ↔ text.head? = some a := by
  cases text with
  | nil => simp [encoded]
  | cons c rest =>
    rw [encoded_cons, List.head?_cons, Option.some_inj]
    rcases Nat.lt_or_ge c.toNat 128 with hc | hc
    · rw [(utf8EncodeChar_small hc).2, List.singleton_append, List.getElem?_cons_zero,
        Option.some_inj]
      refine ⟨fun h => ?_, fun h => by rw [h]⟩
      have h := congrArg UInt8.toNat h
      rw [UInt8.toNat_ofNat', UInt8.toNat_ofNat', Nat.mod_eq_of_lt (by omega),
        Nat.mod_eq_of_lt (by omega)] at h
      exact Char.toNat_inj.mp h
    · refine ⟨fun h => ?_, fun h => absurd hc (by rw [h]; exact Nat.not_le_of_lt ha)⟩
      have hpos : 0 < (String.utf8EncodeChar c).length := by
        rw [String.length_utf8EncodeChar]
        exact c.utf8Size_pos
      rw [List.getElem?_append_left hpos] at h
      have hle := le_of_mem_utf8EncodeChar hc (List.mem_of_getElem? h)
      rw [UInt8.toNat_ofNat', Nat.mod_eq_of_lt (by omega)] at hle
      exact absurd ha (Nat.not_lt_of_le hle)

/-! Marks among the bytes of a text. -/

/-- Characters that are bytes of their own. -/
def IsPlainMark (mark : List Char) : Prop := mark ≠ [] ∧ ∀ c ∈ mark, c.toNat < 128

theorem encoded_isPrefixOf {mark : List Char} (hmark : ∀ c ∈ mark, c.toNat < 128)
    (text : List Char) : (encoded mark).isPrefixOf (encoded text) = mark.isPrefixOf text := by
  induction mark generalizing text with
  | nil => rfl
  | cons a mark ih =>
    have ha := hmark a List.mem_cons_self
    have hhead := encoded_head?_eq_iff ha text
    have ih := ih (fun c hc => hmark c (List.mem_cons_of_mem a hc))
    rw [encoded_cons, (utf8EncodeChar_small ha).2, List.singleton_append]
    cases text with
    | nil => rfl
    | cons c rest =>
      rw [List.head?_cons, Option.some_inj] at hhead
      by_cases hc : c = a
      · subst hc
        rw [encoded_cons, (utf8EncodeChar_small ha).2, List.singleton_append,
          List.isPrefixOf_cons_cons, List.isPrefixOf_cons_cons, ih, beq_self_eq_true,
          beq_self_eq_true]
      · have hbyte : (encoded (c :: rest))[0]? ≠ some (UInt8.ofNat a.toNat) :=
          fun h => hc (hhead.mp h)
        rw [List.isPrefixOf_cons_cons, beq_eq_false_iff_ne.mpr (Ne.symm hc), Bool.false_and]
        cases hbytes : encoded (c :: rest) with
        | nil => rfl
        | cons b bytes =>
          rw [hbytes, List.getElem?_cons_zero, ne_eq, Option.some_inj] at hbyte
          rw [List.isPrefixOf_cons_cons, beq_eq_false_iff_ne.mpr (Ne.symm hbyte), Bool.false_and]

/-- Bytes from 128 on are passed over in a search for a mark. -/
theorem findBytes?_append {mark : List Char} (hmark : IsPlainMark mark) {more : List UInt8}
    (hmore : ∀ x ∈ more, 128 ≤ x.toNat) (bytes : List UInt8) :
    findBytes? (encoded mark) (more ++ bytes) =
      (findBytes? (encoded mark) bytes).map (more.length + ·) := by
  induction more with
  | nil => simp
  | cons b more ih =>
    have ih := ih (fun x hx => hmore x (List.mem_cons_of_mem b hx))
    have hb := hmore b List.mem_cons_self
    have hprefix : (encoded mark).isPrefixOf (b :: (more ++ bytes)) = false := by
      obtain ⟨hne, hsmall⟩ := hmark
      cases mark with
      | nil => exact absurd rfl hne
      | cons a mark =>
        have ha := hsmall a List.mem_cons_self
        have hab : UInt8.ofNat a.toNat ≠ b := by
          rintro rfl
          rw [UInt8.toNat_ofNat', Nat.mod_eq_of_lt (by omega)] at hb
          omega
        rw [encoded_cons, (utf8EncodeChar_small ha).2, List.singleton_append,
          List.isPrefixOf_cons_cons, beq_eq_false_iff_ne.mpr hab, Bool.false_and]
    rw [List.cons_append, findBytes?, hprefix, if_neg Bool.false_ne_true, ih, Option.map_map]
    congr 1
    funext n
    simp only [Function.comp_apply, List.length_cons]
    omega

/-- A mark stands among the bytes of a text where it stands among the characters. -/
theorem findBytes?_encoded {mark : List Char} (hmark : IsPlainMark mark) (text : List Char) :
    (findBytes? (encoded mark) (encoded text)).map (· + byteLength mark) =
      (lengthThrough? mark text).map fun n => byteLength (text.take n) := by
  induction text with
  | nil => rfl
  | cons c rest ih =>
    have hprefix := encoded_isPrefixOf hmark.2 (c :: rest)
    rw [lengthThrough?, ← hprefix]
    obtain ⟨b, more, hbytes, hmore⟩ := utf8EncodeChar_eq_cons c
    have hsize : c.utf8Size = more.length + 1 := by
      rw [← String.length_utf8EncodeChar, hbytes, List.length_cons]
    rw [encoded_cons, hbytes, List.cons_append, findBytes?]
    split
    · rename_i hp
      have htake : (c :: rest).take mark.length = mark := by
        rw [encoded_cons, hbytes, List.cons_append, hp] at hprefix
        exact (List.prefix_iff_eq_take.mp (List.isPrefixOf_iff_prefix.mp hprefix.symm)).symm
      rw [Option.map_some, Option.map_some, htake, Nat.zero_add]
    · rw [findBytes?_append hmark fun x hx => (hmore x hx).1, Option.map_map, Option.map_map,
        Option.map_map]
      have ih := congrArg (Option.map (c.utf8Size + ·)) ih
      rw [Option.map_map, Option.map_map] at ih
      rw [show ((fun n => byteLength ((c :: rest).take n)) ∘ fun n => n + 1) =
        (c.utf8Size + ·) ∘ fun n => byteLength (rest.take n) from
          funext fun n => byteLength_cons c _, ← ih]
      congr 1
      funext n
      simp only [Function.comp_apply, hsize]
      omega

end ScriptTree
