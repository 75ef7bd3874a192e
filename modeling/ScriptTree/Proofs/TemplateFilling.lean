import Mathlib.Data.List.Basic
import ScriptTree.Diagnostic

/-!
Filling a template at once and in turn. `substitute` puts all arguments in the places that the
template has for them. A message is filled with one argument after the other, each in a text that
has the earlier ones already. As long as these bring in no place for a later one, the result is the
same.
-/
namespace ScriptTree

/-! How often a pattern begins in a text. -/

/-- At how many places of a text the pattern begins. -/
def occurrences (pattern : List Char) : List Char → Nat
  | [] => 0
  | c :: rest => (if pattern.isPrefixOf (c :: rest) then 1 else 0) + occurrences pattern rest

section
variable {pattern value a b : List Char} {c : Char}

theorem occurrences_append_le (pattern a b : List Char) :
    occurrences pattern b ≤ occurrences pattern (a ++ b) := by
  induction a with
  | nil => exact Nat.le_refl _
  | cons c a ih => exact Nat.le_trans ih (Nat.le_add_left _ _)

/-- A pattern begins nowhere among characters other than its first. -/
theorem occurrences_append_of_notMem (h : c ∉ a) :
    occurrences (c :: pattern) (a ++ b) = occurrences (c :: pattern) b := by
  induction a with
  | nil => rfl
  | cons d a ih =>
    obtain ⟨hd, ha⟩ := not_or.mp (List.mem_cons.not.mp h)
    rw [List.cons_append, occurrences, ih ha]
    simp [hd]

theorem replaceAll_cons (h : ¬pattern <+: c :: b) :
    replaceAll pattern value (c :: b) = c :: replaceAll pattern value b := by
  rw [← List.isPrefixOf_iff_prefix] at h
  rw [replaceAll, replaceFrom, if_neg h, replaceAll]

/-- Where a pattern begins no more often than in the text that follows, it is replaced only in
that. -/
theorem replaceAll_append (h : occurrences pattern (a ++ b) = occurrences pattern b) :
    replaceAll pattern value (a ++ b) = a ++ replaceAll pattern value b := by
  induction a with
  | nil => rfl
  | cons c a ih =>
    have hle := occurrences_append_le pattern a b
    rw [List.cons_append, occurrences] at h
    split at h
    · omega
    · rename_i hbegins
      rw [List.isPrefixOf_iff_prefix] at hbegins
      rw [List.cons_append, replaceAll_cons hbegins, ih (by omega), List.cons_append]

theorem replaceAll_pattern_append :
    replaceAll (c :: pattern) value (c :: pattern ++ b) =
      value ++ replaceAll (c :: pattern) value b := by
  have hbegins : (c :: pattern).isPrefixOf (c :: (pattern ++ b)) = true :=
    List.isPrefixOf_iff_prefix.mpr (List.prefix_append (c :: pattern) b)
  rw [List.cons_append, replaceAll, replaceFrom, if_pos hbegins, replaceFrom_eq_drop,
    List.length_cons, Nat.add_sub_cancel, List.drop_left]

/-- A part of a text in which the pattern does not begin is kept, and the rest goes on as before. -/
theorem replaceAll_append_of_le {after : List Char} {n : Nat} (hle : n ≤ occurrences pattern b)
    (hafter : occurrences pattern b = n → replaceAll pattern value b = after) :
    n ≤ occurrences pattern (a ++ b) ∧
      (occurrences pattern (a ++ b) = n → replaceAll pattern value (a ++ b) = a ++ after) := by
  have hmore := occurrences_append_le pattern a b
  refine ⟨Nat.le_trans hle hmore, fun h => ?_⟩
  have hb : occurrences pattern b = n := by omega
  rw [replaceAll_append (h.trans hb.symm), hafter hb]

end

namespace Message

/-! The places of arguments. -/

/-- The place of argument `i`, as characters. -/
def hole (i : Nat) : List Char := (placeholder i).toList

theorem hole_eq (i : Nat) : hole i = '{' :: (Nat.toDigits 10 i ++ ['}']) := by
  simp [hole, placeholder, Nat.repr]

theorem brace_notMem_toDigits (i : Nat) : '{' ∉ Nat.toDigits 10 i ∧ '}' ∉ Nat.toDigits 10 i := by
  have hdigit {c : Char} (h : c ∈ Nat.toDigits 10 i) : c.isDigit = true :=
    Nat.isDigit_of_mem_toDigits (by decide) (Nat.le_refl 10) h
  exact ⟨fun h => Bool.noConfusion (hdigit h), fun h => Bool.noConfusion (hdigit h)⟩

/-- Only the first character of a place is an opening brace. -/
theorem exists_hole_eq (i : Nat) : ∃ tail, hole i = '{' :: tail ∧ '{' ∉ tail := by
  refine ⟨_, hole_eq i, fun h => ?_⟩
  rcases List.mem_append.mp h with h | h
  · exact (brace_notMem_toDigits i).1 h
  · exact absurd (List.mem_singleton.mp h) (by decide)

theorem eq_of_hole_prefix_hole {i j : Nat} (h : hole i <+: hole j) : i = j := by
  obtain ⟨tail, h⟩ := h
  rw [hole_eq, hole_eq, List.cons_append, List.append_assoc] at h
  have hdigits := (List.append_cons_inj_of_notMem (brace_notMem_toDigits j).2 List.not_mem_nil).mp
    (List.cons.inj h).2.symm
  have hvalue (n : Nat) : Nat.ofDigitChars 10 (Nat.toDigits 10 n) 0 = n :=
    Nat.ofDigitChars_toDigits (by decide) (Nat.le_refl 10)
  rw [← hvalue i, ← hvalue j, hdigits.1]

/-- No two places begin alike. -/
theorem hole_prefix_iff {i j : Nat} {rest : List Char} : hole i <+: hole j ++ rest ↔ i = j := by
  refine ⟨fun h => ?_, fun h => h ▸ List.prefix_append _ _⟩
  rcases List.prefix_or_prefix_of_prefix h (List.prefix_append (hole j) rest) with h | h
  · exact eq_of_hole_prefix_hole h
  · exact (eq_of_hole_prefix_hole h).symm

theorem occurrences_hole_append (i j : Nat) (rest : List Char) :
    occurrences (hole i) (hole j ++ rest) =
      (if i = j then 1 else 0) + occurrences (hole i) rest := by
  obtain ⟨tail, hj, htail⟩ := exists_hole_eq j
  obtain ⟨tail', hi, -⟩ := exists_hole_eq i
  have hinside : occurrences (hole i) (tail ++ rest) = occurrences (hole i) rest := by
    rw [hi]
    exact occurrences_append_of_notMem htail
  have hbegins : hole i <+: hole j ++ rest ↔ i = j := hole_prefix_iff
  rw [hj, List.cons_append] at hbegins ⊢
  rw [occurrences, hinside]
  simp only [List.isPrefixOf_iff_prefix, hbegins]

/-- A text is a place of one of `n` arguments, or a character where none begins, and then more of
these. -/
theorem induction_on_holes (n : Nat) {P : List Char → Prop} (nil : P [])
    (hole : ∀ i < n, ∀ rest, P rest → P (hole i ++ rest))
    (char : ∀ c rest, (∀ i < n, ¬Message.hole i <+: c :: rest) → P rest → P (c :: rest))
    (text : List Char) : P text := by
  induction hlength : text.length using Nat.strongRecOn generalizing text with
  | ind length ih =>
    cases text with
    | nil => exact nil
    | cons c rest =>
      subst hlength
      by_cases hplace : ∃ i < n, Message.hole i <+: c :: rest
      · obtain ⟨i, hi, after, hafter⟩ := hplace
        obtain ⟨tail, hhole, -⟩ := exists_hole_eq i
        have hlength := congrArg List.length hafter
        rw [← hafter]
        refine hole i hi after (ih _ ?_ after rfl)
        rw [hhole, List.cons_append, List.length_cons, List.length_append] at hlength
        omega
      · refine char c rest (fun i hi h => hplace ⟨i, hi, h⟩) (ih _ ?_ rest rfl)
        exact Nat.lt_succ_self _

/-! Filling all places at once. -/

/-- The argument whose place begins a text, with its index. -/
def leading? (args : List String) (text : List Char) : Option (String × Nat) :=
  args.zipIdx.find? fun x => (hole x.2).isPrefixOf text

/-- Pass over `skip` characters, and from there on put the arguments in their places. What is put
there is not looked at again. -/
def substituteFrom (args : List String) : Nat → List Char → List Char
  | _, [] => []
  | skip + 1, _ :: rest => substituteFrom args skip rest
  | 0, c :: rest =>
    match leading? args (c :: rest) with
    | some (arg, i) => arg.toList ++ substituteFrom args ((hole i).length - 1) rest
    | none => c :: substituteFrom args 0 rest

/-- A template with all its arguments put in their places at once. -/
def substitute (template : String) (args : List String) : String :=
  String.ofList (substituteFrom args 0 template.toList)

section
variable {args : List String} {arg : String} {i n : Nat} {c : Char} {text rest : List Char}

theorem leading?_eq_some_iff :
    leading? args text = some (arg, i) ↔ args[i]? = some arg ∧ hole i <+: text := by
  have hfound {x : String × Nat} (h : leading? args text = some x) :
      args[x.2]? = some x.1 ∧ hole x.2 <+: text := by
    rw [leading?] at h
    have hbegins := List.find?_some h
    refine ⟨List.mem_zipIdx_iff_getElem?.mp (List.mem_of_find?_eq_some h), ?_⟩
    exact List.isPrefixOf_iff_prefix.mp hbegins
  refine ⟨hfound, fun ⟨harg, hhole⟩ => ?_⟩
  cases h : leading? args text with
  | none =>
    have hmem : (arg, i) ∈ args.zipIdx := List.mem_zipIdx_iff_getElem?.mpr harg
    rw [leading?] at h
    have hnot := List.find?_eq_none.mp h _ hmem
    exact absurd (List.isPrefixOf_iff_prefix.mpr hhole) hnot
  | some x =>
    obtain ⟨harg', hhole'⟩ := hfound h
    obtain ⟨rest, rfl⟩ := hhole
    obtain rfl : x.2 = i := hole_prefix_iff.mp hhole'
    rw [← Option.some.inj (harg'.symm.trans harg)]

theorem leading?_eq_none_iff :
    leading? args text = none ↔ ∀ i < args.length, ¬hole i <+: text := by
  rw [Option.eq_none_iff_forall_ne_some]
  refine ⟨fun h i hi hhole => ?_, fun h x hx => ?_⟩
  · exact h _ (leading?_eq_some_iff.mpr ⟨List.getElem?_eq_getElem hi, hhole⟩)
  · obtain ⟨harg, hhole⟩ := leading?_eq_some_iff.mp hx
    exact h _ (List.getElem?_eq_some_iff.mp harg).1 hhole

theorem substituteFrom_eq_drop (args : List String) (skip : Nat) (text : List Char) :
    substituteFrom args skip text = substituteFrom args 0 (text.drop skip) := by
  induction text generalizing skip with
  | nil => cases skip <;> rfl
  | cons c rest ih =>
    cases skip with
    | zero => rfl
    | succ skip => exact ih skip

theorem substituteFrom_hole (h : args[i]? = some arg) (rest : List Char) :
    substituteFrom args 0 (hole i ++ rest) = arg.toList ++ substituteFrom args 0 rest := by
  have hleading := leading?_eq_some_iff.mpr ⟨h, List.prefix_append (hole i) rest⟩
  obtain ⟨tail, hhole, -⟩ := exists_hole_eq i
  rw [hhole, List.cons_append] at hleading ⊢
  rw [substituteFrom, hleading]
  dsimp only
  rw [hhole, List.length_cons, Nat.add_sub_cancel, substituteFrom_eq_drop, List.drop_left]

theorem substituteFrom_char (h : ∀ i < args.length, ¬hole i <+: c :: rest) :
    substituteFrom args 0 (c :: rest) = c :: substituteFrom args 0 rest := by
  rw [substituteFrom, leading?_eq_none_iff.mpr h]

theorem substituteFrom_nil (text : List Char) : substituteFrom [] 0 text = text := by
  induction text with
  | nil => rfl
  | cons c rest ih => rw [substituteFrom_char (by simp), ih]

/-- The place of an argument that is not there is left as it is. -/
theorem substituteFrom_hole_of_le (h : args.length ≤ i) (rest : List Char) :
    substituteFrom args 0 (hole i ++ rest) = hole i ++ substituteFrom args 0 rest := by
  have hno (j : Nat) (hj : j < args.length) : ¬hole j <+: hole i ++ rest := by
    rw [hole_prefix_iff]
    omega
  obtain ⟨tail, hhole, htail⟩ := exists_hole_eq i
  -- No place begins inside this one.
  have hinside (tail : List Char) (htail : '{' ∉ tail) :
      substituteFrom args 0 (tail ++ rest) = tail ++ substituteFrom args 0 rest := by
    induction tail with
    | nil => rfl
    | cons c tail ih =>
      obtain ⟨hc, htail⟩ := not_or.mp (List.mem_cons.not.mp htail)
      rw [List.cons_append, substituteFrom_char, ih htail, List.cons_append]
      intro j _ hbegins
      obtain ⟨tail', hj, -⟩ := exists_hole_eq j
      rw [hj, List.cons_prefix_cons] at hbegins
      exact hc hbegins.1
  rw [hhole, List.cons_append] at hno ⊢
  rw [substituteFrom_char hno, hinside tail htail, List.cons_append]

/-! Filling one place after the other. -/

/-- Where the first `k` arguments are in their places, the template's places of the next one are
still there. If there are no others, filling them in is filling in one argument more at once. -/
theorem replaceAll_substituteFrom {k : Nat} (h : args[k]? = some arg) (text : List Char) :
    occurrences (hole k) text ≤ occurrences (hole k) (substituteFrom (args.take k) 0 text) ∧
      (occurrences (hole k) (substituteFrom (args.take k) 0 text) = occurrences (hole k) text →
        replaceAll (hole k) arg.toList (substituteFrom (args.take k) 0 text) =
          substituteFrom (args.take (k + 1)) 0 text) := by
  have hk : k < args.length := (List.getElem?_eq_some_iff.mp h).1
  have hnext : (args.take (k + 1))[k]? = some arg := by
    rw [List.getElem?_take_of_lt (Nat.lt_succ_self k), h]
  induction text using induction_on_holes (k + 1) with
  | nil => exact ⟨Nat.le_refl _, fun _ => rfl⟩
  | hole i hi rest ih =>
    rw [occurrences_hole_append]
    rcases Nat.lt_or_eq_of_le (Nat.le_of_lt_succ hi) with hik | rfl
    · have harg : args[i]? = some args[i] := List.getElem?_eq_getElem (by omega)
      rw [if_neg (Nat.ne_of_gt hik), Nat.zero_add,
        substituteFrom_hole ((List.getElem?_take_of_lt hik).trans harg),
        substituteFrom_hole ((List.getElem?_take_of_lt hi).trans harg)]
      exact replaceAll_append_of_le ih.1 ih.2
    · have hkept : (args.take i).length ≤ i := List.length_take_le _ _
      rw [if_pos rfl, substituteFrom_hole_of_le hkept, substituteFrom_hole hnext,
        occurrences_hole_append, if_pos rfl]
      refine ⟨Nat.add_le_add_left ih.1 1, fun hcount => ?_⟩
      obtain ⟨tail, hhole, -⟩ := exists_hole_eq i
      rw [← ih.2 (Nat.add_left_cancel hcount), hhole, replaceAll_pattern_append]
  | char c rest hno ih =>
    have hcount : occurrences (hole k) (c :: rest) = occurrences (hole k) rest := by
      have hbegins := hno k (Nat.lt_succ_self k)
      rw [← List.isPrefixOf_iff_prefix] at hbegins
      rw [occurrences, if_neg hbegins, Nat.zero_add]
    have hearlier (n : Nat) (hn : n ≤ k + 1) (i : Nat) (hi : i < (args.take n).length) :
        ¬hole i <+: c :: rest :=
      hno i (Nat.lt_of_lt_of_le hi (Nat.le_trans (List.length_take_le _ _) hn))
    rw [hcount, substituteFrom_char (hearlier k (Nat.le_succ k)),
      substituteFrom_char (hearlier (k + 1) (Nat.le_refl _))]
    exact replaceAll_append_of_le (a := [c]) ih.1 ih.2

theorem fillFrom_append (first : Nat) (args more : List String) (text : List Char) :
    fillFrom first (args ++ more) text =
      fillFrom (first + args.length) more (fillFrom first args text) := by
  induction args generalizing first text with
  | nil => rfl
  | cons arg args ih =>
    rw [List.cons_append, fillFrom, ih, fillFrom, List.length_cons, Nat.add_assoc,
      Nat.add_comm 1]

/-- When an argument is filled in, the places for it are those of the template: the arguments before
it have brought in none. -/
def FillsOwnPlaces (template : List Char) (args : List String) : Prop :=
  ∀ i < args.length, occurrences (hole i) (fillFrom 0 (args.take i) template) =
    occurrences (hole i) template

instance (template : List Char) (args : List String) : Decidable (FillsOwnPlaces template args) :=
  inferInstanceAs (Decidable (∀ i < args.length, _ = _))

theorem FillsOwnPlaces.fillFrom_take {template : List Char} (h : FillsOwnPlaces template args)
    {k : Nat} (hk : k ≤ args.length) :
    fillFrom 0 (args.take k) template = substituteFrom (args.take k) 0 template := by
  induction k with
  | zero => rw [List.take_zero, fillFrom, substituteFrom_nil]
  | succ k ih =>
    have harg : args[k]? = some args[k] := List.getElem?_eq_getElem hk
    have hbefore := ih (Nat.le_of_lt hk)
    have hcount := h k hk
    rw [hbefore] at hcount
    rw [← (replaceAll_substituteFrom harg template).2 hcount, List.take_add_one, harg,
      fillFrom_append, hbefore, List.length_take, Nat.min_eq_left (Nat.le_of_lt hk), Nat.zero_add]
    rfl

/-- Filling in one argument after the other fills them in at once, if none of them brings in a place
for a later one. -/
theorem fillTemplate_eq_substitute {template : String}
    (h : FillsOwnPlaces template.toList args) :
    fillTemplate template args = substitute template args := by
  have hall := h.fillFrom_take (Nat.le_refl _)
  rw [List.take_length] at hall
  rw [fillTemplate, substitute, hall]

end
end Message
end ScriptTree
