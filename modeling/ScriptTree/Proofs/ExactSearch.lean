import Mathlib.Data.Nat.Find
import Mathlib.Order.Bounds.Basic
import ScriptTree.Token.Table

/-!
What searches in a token table find. A search counts the tokens of its window that it passes over,
so that its result is told by the places of the tokens alone, whatever the bounds are.
-/
namespace ScriptTree.TokenTable

section
variable {tokens : Array Token} {p : Token → Bool} {count i j skip : Nat} {x : Token}

theorem countP_extract_self (tokens : Array Token) (p : Token → Bool) (i : Nat) :
    (tokens.extract i i).countP p = 0 := by
  have hempty : tokens.extract i i = #[] := Array.extract_eq_empty_iff.mpr (Nat.min_le_left _ _)
  rw [hempty]
  rfl

theorem countP_extract_cons (hx : tokens[i]? = some x) (hij : i < j) :
    (tokens.extract i j).countP p =
      (if p x = true then 1 else 0) + (tokens.extract (i + 1) j).countP p := by
  obtain ⟨hi, rfl⟩ := Array.getElem?_eq_some_iff.mp hx
  have hsplit := @Array.extract_append_extract _ tokens i (i + 1) j
  rw [Nat.min_eq_left (Nat.le_succ i), Nat.max_eq_right hij,
    Array.extract_succ_right (Nat.lt_succ_self i) hi] at hsplit
  rw [← hsplit, Array.countP_append, Array.countP_push, countP_extract_self, Nat.zero_add]

/-- A token with `p` stands at place `j`, and `skip` others stand before it from place `i` on. -/
structure StandsAfter (tokens : Array Token) (p : Token → Bool) (i skip j : Nat) : Prop where
  le : i ≤ j
  token : ∃ x, tokens[j]? = some x ∧ p x = true
  count_eq : (tokens.extract i j).countP p = skip

namespace StandsAfter

theorem lt_size (h : StandsAfter tokens p i skip j) : j < tokens.size := by
  obtain ⟨x, hx, -⟩ := h.token
  exact (Array.getElem?_eq_some_iff.mp hx).1

/-- The token at `i` has `p`, so that it is the first one. -/
theorem zero_iff (hx : tokens[i]? = some x) (hp : p x = true) :
    StandsAfter tokens p i 0 j ↔ i = j := by
  constructor
  · rintro ⟨hle, -, hcount⟩
    by_contra hne
    rw [countP_extract_cons hx (by omega), if_pos hp] at hcount
    omega
  · rintro rfl
    exact ⟨Nat.le_refl i, ⟨x, hx, hp⟩, countP_extract_self tokens p i⟩

theorem succ_iff (hx : tokens[i]? = some x) (hp : p x = true) :
    StandsAfter tokens p i (skip + 1) j ↔ StandsAfter tokens p (i + 1) skip j := by
  constructor
  · rintro ⟨hle, htoken, hcount⟩
    have hij : i < j := by
      by_contra hne
      obtain rfl : i = j := by omega
      rw [countP_extract_self] at hcount
      cases hcount
    rw [countP_extract_cons hx hij, if_pos hp] at hcount
    exact ⟨hij, htoken, by omega⟩
  · rintro ⟨hij, htoken, hcount⟩
    refine ⟨Nat.le_of_lt hij, htoken, ?_⟩
    rw [countP_extract_cons hx hij, if_pos hp]
    omega

/-- The token at `i` does not have `p`, so that it does not count. -/
theorem skip_iff (hx : tokens[i]? = some x) (hp : ¬p x = true) :
    StandsAfter tokens p i skip j ↔ StandsAfter tokens p (i + 1) skip j := by
  constructor
  · rintro ⟨hle, htoken, hcount⟩
    have hij : i < j := by
      by_contra hne
      obtain rfl : i = j := by omega
      obtain ⟨y, hy, hpy⟩ := htoken
      rw [hx] at hy
      cases hy
      exact hp hpy
    rw [countP_extract_cons hx hij, if_neg hp] at hcount
    exact ⟨hij, htoken, by omega⟩
  · rintro ⟨hij, htoken, hcount⟩
    refine ⟨Nat.le_of_lt hij, htoken, ?_⟩
    rw [countP_extract_cons hx hij, if_neg hp]
    omega

end StandsAfter

/-- A search finds the token with `p` that as many others come before as it skips. -/
theorem scanFor?_eq_some_iff : scanFor? tokens p count i skip = some j ↔
    StandsAfter tokens p i skip j ∧ j < i + count := by
  induction count generalizing i skip with
  | zero =>
    constructor
    · nofun
    · rintro ⟨h, hlt⟩
      exact absurd h.le (Nat.not_le_of_lt hlt)
  | succ count ih =>
    unfold scanFor?
    cases hi : tokens[i]? with
    | none =>
      constructor
      · nofun
      · rintro ⟨h, -⟩
        have hsize := Array.getElem?_eq_none_iff.mp hi
        exact absurd h.le (Nat.not_le_of_lt (Nat.lt_of_lt_of_le h.lt_size hsize))
    | some x =>
      have hbound : i + 1 + count = i + (count + 1) := by omega
      by_cases hp : p x = true
      · cases skip with
        | zero =>
          simp only [hp, if_true, Option.some.injEq, StandsAfter.zero_iff hi hp]
          constructor
          · rintro rfl
            exact ⟨rfl, by omega⟩
          · exact And.left
        | succ skip => simp [hp, StandsAfter.succ_iff hi hp, ih, hbound]
      · simp [hp, StandsAfter.skip_iff hi hp, ih, hbound]

theorem countP_extract_eq_zero_iff : (tokens.extract i j).countP p = 0 ↔
    ∀ l u, i ≤ l → l < j → tokens[l]? = some u → p u = false := by
  simp only [Array.countP_eq_zero, Array.mem_extract_iff_getElem, Bool.not_eq_true]
  constructor
  · intro h l u hl hlt hu
    obtain ⟨hsize, rfl⟩ := Array.getElem?_eq_some_iff.mp hu
    refine h _ ⟨l - i, by omega, ?_⟩
    congr 1
    omega
  · rintro h _ ⟨k, hk, rfl⟩
    exact h (i + k) _ (by omega) (by omega) (Array.getElem?_eq_getElem _)

end

section
variable {t : TokenTable} {p : Token → Bool} {start stop skip i : Nat} {x : Token}

/-- A token with `p` stands at place `i` of the window from `start` to `stop`, to which both of its
ends belong. -/
structure Has (t : TokenTable) (p : Token → Bool) (start stop i : Nat) : Prop where
  start_le : start ≤ i
  le_stop : i ≤ stop
  token : ∃ x, t.tokens[i]? = some x ∧ p x = true

theorem search?_eq_some_iff : t.search? p start stop skip = some i ↔
    t.Has p start stop i ∧ (t.tokens.extract start i).countP p = skip := by
  rw [search?, scanFor?_eq_some_iff]
  constructor
  · rintro ⟨⟨hle, htoken, hcount⟩, hlt⟩
    exact ⟨⟨hle, by omega, htoken⟩, hcount⟩
  · rintro ⟨⟨hle, hstop, htoken⟩, hcount⟩
    have h : StandsAfter t.tokens p start skip i := ⟨hle, htoken, hcount⟩
    have := h.lt_size
    exact ⟨h, by omega⟩

/-- A search that skips nothing stops at the first token with `p`. -/
theorem search?_zero_eq_some_iff : t.search? p start stop 0 = some i ↔
    IsLeast {j | t.Has p start stop j} i := by
  rw [search?_eq_some_iff, countP_extract_eq_zero_iff]
  constructor
  · rintro ⟨h, hfirst⟩
    refine ⟨h, fun j hj => ?_⟩
    obtain ⟨u, hu, hp⟩ := hj.token
    by_contra hlt
    rw [hfirst j u hj.start_le (Nat.lt_of_not_le hlt) hu] at hp
    cases hp
  · rintro ⟨h, hleast⟩
    refine ⟨h, fun l u hl hlt hu => ?_⟩
    by_contra hp
    have hl := hleast ⟨hl, Nat.le_trans (Nat.le_of_lt hlt) h.le_stop, u, hu, by simpa using hp⟩
    exact Nat.not_le_of_lt hlt hl

theorem search?_eq_some (hstart : start ≤ i) (hstop : i ≤ stop) (hx : t.tokens[i]? = some x)
    (hp : p x = true) (hfirst : ∀ l u, start ≤ l → l < i → t.tokens[l]? = some u → p u = false) :
    t.search? p start stop 0 = some i :=
  search?_eq_some_iff.mpr ⟨⟨hstart, hstop, x, hx, hp⟩, countP_extract_eq_zero_iff.mpr hfirst⟩

/-- What a search finds is in its window. -/
theorem search?_spec (h : t.search? p start stop skip = some i) : t.Has p start stop i :=
  (search?_eq_some_iff.mp h).1

theorem search?_eq_none (h : ∀ l u, start ≤ l → l ≤ stop → t.tokens[l]? = some u → p u = false)
    (skip : Nat) : t.search? p start stop skip = none := by
  apply Option.eq_none_iff_forall_ne_some.mpr
  intro i hi
  obtain ⟨hstart, hstop, x, hx, hp⟩ := search?_spec hi
  rw [h i x hstart hstop hx] at hp
  cases hp

theorem search?_zero_eq_none_iff : t.search? p start stop 0 = none ↔
    ∀ i, ¬t.Has p start stop i := by
  classical
  constructor
  · intro hnone i hi
    have hsome : ∃ j, t.Has p start stop j := ⟨i, hi⟩
    have hleast : IsLeast {j | t.Has p start stop j} (Nat.find hsome) :=
      ⟨Nat.find_spec hsome, fun _ => Nat.find_min' hsome⟩
    rw [search?_zero_eq_some_iff.mpr hleast] at hnone
    cases hnone
  · intro h
    exact Option.eq_none_iff_forall_ne_some.mpr fun i hi => h i (search?_spec hi)

/-- Searches are exact in every window, also in one that is reversed or goes past the tokens: they
find the token that `skip` others of its kind in the window come before, an operator by its own
kind or else, if that is nowhere in the window, by the kind it is written as, and the first token
that is not hidden. -/
theorem searches_exact (t : TokenTable) (kind : Kind) (start stop : Nat) :
    (∀ skip i, t.findNth? kind start stop skip = some i ↔
      t.Has (·.kind == kind) start stop i ∧
        (t.tokens.extract start i).countP (·.kind == kind) = skip) ∧
    (∀ i, t.findOperator? kind start stop = some i ↔
      IsLeast {j | t.Has (·.kind == kind) start stop j} i ∨
        (∀ j, ¬t.Has (·.kind == kind) start stop j) ∧ ∃ written ∈ kind.operatorToken?,
          IsLeast {j | t.Has (·.kind == written) start stop j} i) ∧
    ∀ i, t.nextSignificant? start stop = some i ↔
      IsLeast {j | t.Has (!·.isHidden) start stop j} i := by
  have hfind (k : Kind) (i : Nat) : t.find? k start stop = some i ↔
      IsLeast {j | t.Has (·.kind == k) start stop j} i := search?_zero_eq_some_iff
  have hnone : t.find? kind start stop = none ↔
      ∀ j, ¬t.Has (·.kind == kind) start stop j := search?_zero_eq_none_iff
  refine ⟨fun skip i => search?_eq_some_iff, fun i => ?_, fun i => search?_zero_eq_some_iff⟩
  simp only [findOperator?, Option.or_eq_some_iff, Option.bind_eq_some_iff, hfind, hnone,
    Option.mem_def]

end
end ScriptTree.TokenTable
