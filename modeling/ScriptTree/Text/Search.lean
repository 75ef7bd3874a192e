/-!
Searches in a text given as a list of characters: how far a class of characters reaches, where a
mark ends, and a text with every occurrence of a pattern replaced.
-/
namespace ScriptTree

/-- How many characters at the front of `text` satisfy `p`, up to the first that does not. -/
def runLength (p : Char → Bool) (text : List Char) : Nat := (text.takeWhile p).length

/-- How many characters there are up to the end of the first occurrence of `mark`. -/
def lengthThrough? (mark : List Char) : List Char → Option Nat
  | [] => none
  | c :: rest =>
    if mark.isPrefixOf (c :: rest) then some mark.length
    else (lengthThrough? mark rest).map (· + 1)

/-- Pass over `skip` characters, and from there on put `value` in the place of each occurrence of
`pattern`. Occurrences are looked for from left to right and do not overlap. -/
def replaceFrom (pattern value : List Char) : Nat → List Char → List Char
  | _, [] => []
  | skip + 1, _ :: rest => replaceFrom pattern value skip rest
  | 0, c :: rest =>
    if pattern.isPrefixOf (c :: rest) then
      value ++ replaceFrom pattern value (pattern.length - 1) rest
    else c :: replaceFrom pattern value 0 rest

/-- Put `value` in the place of each occurrence of `pattern`, which has at least one character. -/
def replaceAll (pattern value text : List Char) : List Char := replaceFrom pattern value 0 text

theorem runLength_le (p : Char → Bool) (text : List Char) : runLength p text ≤ text.length :=
  (List.takeWhile_sublist p).length_le

theorem take_runLength (p : Char → Bool) (text : List Char) :
    text.take (runLength p text) = text.takeWhile p :=
  (List.prefix_iff_eq_take.mp (List.takeWhile_prefix p)).symm

/-- A run goes on over characters of its class. -/
theorem runLength_append {p : Char → Bool} {before : List Char} (h : ∀ c ∈ before, p c = true)
    (after : List Char) : runLength p (before ++ after) = before.length + runLength p after := by
  rw [runLength, List.takeWhile_append_of_pos h, List.length_append, runLength]

theorem replaceFrom_eq_drop (pattern value : List Char) (skip : Nat) (text : List Char) :
    replaceFrom pattern value skip text = replaceAll pattern value (text.drop skip) := by
  induction text generalizing skip with
  | nil => cases skip <;> rfl
  | cons c rest ih =>
    cases skip with
    | zero => rfl
    | succ n => simp [replaceFrom, ih]

end ScriptTree
