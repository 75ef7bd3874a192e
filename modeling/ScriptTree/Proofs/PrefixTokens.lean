import Mathlib.Data.List.Forall2
import ScriptTree.Proofs.LexemeCut
import ScriptTree.Proofs.TextCut

/-!
The tokens of a prefix. Where no XML literals are read, a text that is cut between two tokens has
the tokens before the cut, each at its place and with its flags. The two scans are in step: up to
the last of these tokens they go through the same states.
-/
namespace ScriptTree

/-- Two tokens that differ in nothing but perhaps their kinds. -/
structure Token.Matches (t t' : Token) : Prop where
  text_eq : t'.text = t.text
  line_eq : t'.line = t.line
  column_eq : t'.column = t.column
  index_eq : t'.index = t.index
  lineBreakBefore_eq : t'.lineBreakBefore = t.lineBreakBefore
  unterminated_eq : t'.unterminated = t.unterminated

theorem Token.Matches.refl (t : Token) : t.Matches t := ⟨rfl, rfl, rfl, rfl, rfl, rfl⟩

/-- What becomes of tokens when all is cut off after the last one: a decimal number there may be
left octal. -/
inductive Recut : List Token → List Token → Prop where
  | same (ts : List Token) : Recut ts ts
  | octal (before : List Token) {t : Token} : t.kind = .decimalLiteral →
      Recut (before ++ [t]) (before ++ [{ t with kind := .octalIntegerLiteral }])

namespace Recut
variable {ts ts' : List Token}

theorem cons (t : Token) (h : Recut ts ts') : Recut (t :: ts) (t :: ts') := by
  cases h with
  | same => exact .same _
  | octal before hkind => exact .octal (t :: before) hkind

theorem forall₂_matches (h : Recut ts ts') : List.Forall₂ Token.Matches ts ts' := by
  have hsame (ts : List Token) : List.Forall₂ Token.Matches ts ts :=
    List.forall₂_same.mpr fun t _ => .refl t
  cases h with
  | same => exact hsame ts
  | octal before hkind =>
    exact List.rel_append (hsame before) (.cons ⟨rfl, rfl, rfl, rfl, rfl, rfl⟩ .nil)

end Recut

namespace Scan
variable {xmlLiterals : Bool} {c : Char} {p v : List Char} {s : Scan}

/-- A scan adds tokens to those it has. -/
theorem prefix_cut_tokens [Alphabet] (xmlLiterals : Bool) (skip : Nat) (text : List Char)
    (s : Scan) :
    s.tokens.toList <+: (cut (take xmlLiterals) pass skip text s).tokens.toList := by
  apply cut_preserves (P := fun _ (s' : Scan) => s.tokens.toList <+: s'.tokens.toList)
  · intro s' c rest h
    change _ <+: (take xmlLiterals s' c rest).1.tokens.toList
    rw [take_tokens, Array.toList_push]
    exact h.trans (List.prefix_append _ _)
  · intro s' c rest h
    exact h
  · exact List.prefix_rfl

/-- While a lexeme is passed over no token is added. -/
theorem cut_tokens_of_le [Alphabet] {skip : Nat} {text : List Char} (h : text.length ≤ skip)
    (s : Scan) :
    (cut (take xmlLiterals) pass skip text s).tokens = s.tokens := by
  induction text generalizing skip s with
  | nil => cases skip <;> rfl
  | cons c rest ih =>
    cases skip with
    | zero => cases h
    | succ skip => exact ih (Nat.le_of_succ_le_succ h) (s.pass c rest.head?)

/-- The scan after the token of a lexeme of ordinary text, with the characters given. -/
def after (s : Scan) (l : Lexeme) (text : List Char) : Scan := { s.push l text with modes := [] }

theorem after_tokens (s : Scan) (l : Lexeme) (text : List Char) :
    (s.after l text).tokens.toList = s.tokens.toList ++ [s.tokenOf l text] := by
  rw [after, push_tokens, Array.toList_push]

theorem take_false [Alphabet] (hmodes : s.modes = []) (c : Char) (rest : List Char) :
    let l := (Lexeme.next false s.afterOperand [] c rest).1
    take false s c rest = (s.after l ((c :: rest).take l.size), l.more) := by
  dsimp only
  rw [take, hmodes, Lexeme.next_false, after]

/-- The token of a lexeme that is left octal. -/
theorem tokenOf_octal {l : Lexeme} (h : l.kind = .decimalLiteral) (text : List Char) :
    s.tokenOf { l with kind := .octalIntegerLiteral } text =
      { s.tokenOf l text with kind := .octalIntegerLiteral } := by
  rw [tokenOf, tokenOf, h]
  rfl

/-- Where tokens make up the text before `v`, the first of them is that of the next lexeme, which
ends before `v`. -/
theorem exists_cons_of_cut [Alphabet] {u w : List Token} (hmodes : s.modes = [])
    (htexts : u.flatMap (·.text.toList) = c :: p)
    (h : (cut (take false) pass 0 (c :: (p ++ v)) s).tokens.toList =
      s.tokens.toList ++ (u ++ w)) :
    let l := (Lexeme.next false s.afterOperand [] c (p ++ v)).1
    l.size ≤ p.length + 1 ∧ (c :: (p ++ v)).take l.size = (c :: p).take l.size ∧
      ∃ u', u = s.tokenOf l ((c :: p).take l.size) :: u' ∧
        u'.flatMap (·.text.toList) = p.drop l.more := by
  have hsize := Lexeme.next_size_le false s.afterOperand [] c (p ++ v)
  have hadd := Lexeme.next_more_add_one false s.afterOperand [] c (p ++ v)
  rw [cut, take_false hmodes] at h
  generalize (Lexeme.next false s.afterOperand [] c (p ++ v)).1 = l at h hsize hadd ⊢
  dsimp only at h ⊢
  have hfirst := prefix_cut_tokens false l.more (p ++ v)
    (pass (s.after l ((c :: (p ++ v)).take l.size)) c (p ++ v).head?)
  rw [h] at hfirst
  change (s.after l _).tokens.toList <+: _ at hfirst
  rw [after_tokens, List.prefix_append_right_inj] at hfirst
  cases u with
  | nil => cases htexts
  | cons t u =>
    obtain ⟨rfl, -⟩ := List.cons_prefix_cons.mp hfirst
    rw [List.flatMap_cons, tokenOf, String.toList_ofList] at htexts
    have hle : l.size ≤ (c :: p).length := by
      have hlength := congrArg List.length htexts
      rw [List.length_append, List.length_take, Nat.min_eq_left hsize] at hlength
      omega
    have htake : (c :: p ++ v).take l.size = (c :: p).take l.size :=
      List.take_append_of_le_length hle
    rw [List.cons_append] at htake
    rw [htake] at htexts ⊢
    refine ⟨hle, rfl, u, rfl, ?_⟩
    rw [← List.drop_succ_cons, hadd]
    exact List.append_cancel_left (htexts.trans (List.take_append_drop l.size (c :: p)).symm)

/-- Tokens without text are not there. -/
theorem eq_nil_of_texts {u : List Token} (hne : ∀ t ∈ u, t.text ≠ "")
    (h : u.flatMap (·.text.toList) = []) : u = [] := by
  cases u with
  | nil => rfl
  | cons t u => exact absurd h (by simp [hne t (.head u)])

/-- Up to the end of a token, a scan of a text goes like one of the text that is cut there. -/
theorem cut_firstTokens [Alphabet] {skip : Nat} {u w : List Token} (hmodes : s.modes = [])
    (hskip : skip ≤ p.length) (hne : ∀ t ∈ u, t.text ≠ "")
    (htexts : u.flatMap (·.text.toList) = p.drop skip)
    (h : (cut (take false) pass skip (p ++ v) s).tokens.toList = s.tokens.toList ++ (u ++ w)) :
    ∃ u', Recut u u' ∧
      (cut (take false) pass skip p s).tokens.toList = s.tokens.toList ++ u' := by
  induction p generalizing skip s u with
  | nil =>
    rw [List.drop_nil] at htexts
    obtain rfl := eq_nil_of_texts hne htexts
    refine ⟨[], .same [], ?_⟩
    rw [cut_tokens_of_le (Nat.zero_le skip), List.append_nil]
  | cons c p ih =>
    -- After this character the scans see the same next one, or no token is left.
    have hpass {s : Scan} {skip : Nat} {u : List Token} (hmodes : s.modes = [])
        (hskip : skip ≤ p.length) (hne : ∀ t ∈ u, t.text ≠ "")
        (htexts : u.flatMap (·.text.toList) = p.drop skip)
        (h : (cut (take false) pass skip (p ++ v) (s.pass c (p ++ v).head?)).tokens.toList =
          s.tokens.toList ++ (u ++ w)) :
        ∃ u', Recut u u' ∧ (cut (take false) pass skip p (s.pass c p.head?)).tokens.toList =
          s.tokens.toList ++ u' := by
      cases p with
      | nil =>
        rw [List.drop_nil] at htexts
        obtain rfl := eq_nil_of_texts hne htexts
        refine ⟨[], .same [], ?_⟩
        rw [cut_tokens_of_le (Nat.zero_le skip), List.append_nil]
        rfl
      | cons d p => exact ih (s := s.pass c (some d)) hmodes hskip hne htexts h
    cases skip with
    | succ skip => exact hpass hmodes (Nat.le_of_succ_le_succ hskip) hne htexts h
    | zero =>
      obtain ⟨hle, htake, u, rfl, hrest⟩ := exists_cons_of_cut hmodes htexts h
      have hmore := Nat.sub_le_of_le_add hle
      have hcut := Lexeme.next_cut hle
      rw [List.cons_append, cut, take_false hmodes] at h
      rw [cut, take_false hmodes]
      generalize (Lexeme.next false s.afterOperand [] c (p ++ v)).1 = l at *
      generalize (Lexeme.next false s.afterOperand [] c p).1 = l' at hcut ⊢
      dsimp only at h ⊢
      rw [htake] at h
      have hne : ∀ t ∈ u, t.text ≠ "" := fun t ht => hne t (.tail _ ht)
      cases hcut with
      | same =>
        obtain ⟨u', hrecut, hagain⟩ := hpass rfl hmore hne hrest
          (h.trans (by rw [after_tokens, List.append_assoc]; rfl))
        rw [after_tokens, List.append_assoc] at hagain
        exact ⟨_, hrecut.cons _, hagain⟩
      | octal hkind hlast =>
        have hlast : l.more = p.length := Nat.sub_eq_of_eq_add hlast
        rw [hlast, List.drop_length] at hrest
        obtain rfl := eq_nil_of_texts hne hrest
        refine ⟨_, .octal [] hkind, ?_⟩
        have hend : p.length ≤ Lexeme.more { l with kind := .octalIntegerLiteral } :=
          Nat.le_of_eq hlast.symm
        rw [cut_tokens_of_le hend]
        refine (s.after_tokens _ _).trans ?_
        rw [tokenOf_octal hkind]
        rfl

end Scan

/-- The text of the first `k` tokens has exactly these tokens, with the same texts, places and
flags. All but the last are also of the same kind, and so is the last, unless it is a decimal number
that is octal without what comes after it. -/
theorem tokenize_firstTokens [Alphabet] {source : String} {k : Nat}
    (hk : k ≤ (tokenize source false).tokens.size) :
    let first := (tokenize source false).tokens.toList.take k
    let again := (tokenize (String.join (first.map (·.text))) false).tokens
    again.size = k ∧ List.Forall₂ Token.Matches first again.toList ∧ Recut first again.toList := by
  intro first again
  have hlength : first.length = k := by
    rw [List.length_take, Array.length_toList, Nat.min_eq_left hk]
  have hsource : source.toList = first.flatMap (·.text.toList) ++
      ((tokenize source false).tokens.toList.drop k).flatMap (·.text.toList) := by
    rw [← List.flatMap_append, List.take_append_drop]
    exact (tokenize_texts source false).symm
  have hjoin : (String.join (first.map (·.text))).toList = first.flatMap (·.text.toList) := by
    rw [String.toList_join, List.flatMap_map]
  have hne : ∀ t ∈ first, t.text ≠ "" := fun t ht =>
    (tokenize_faithful source false).text_ne_empty t
      (Array.mem_toList_iff.mp (List.mem_of_mem_take ht))
  have htokens : (cut (Scan.take false) Scan.pass 0 (first.flatMap (·.text.toList) ++
      ((tokenize source false).tokens.toList.drop k).flatMap (·.text.toList)) {}).tokens.toList =
        first ++ (tokenize source false).tokens.toList.drop k := by
    rw [← hsource, ← tokenize_tokens, List.take_append_drop]
  obtain ⟨u', hrecut, hagain⟩ := Scan.cut_firstTokens (p := first.flatMap (·.text.toList)) (s := {})
    rfl (Nat.zero_le _) hne rfl htokens
  rw [← hjoin, ← tokenize_tokens] at hagain
  obtain rfl : again.toList = u' := hagain
  have hmatches := hrecut.forall₂_matches
  refine ⟨?_, hmatches, hrecut⟩
  rw [← Array.length_toList, ← hmatches.length_eq, hlength]

/-- The letter after a number makes it decimal. -/
theorem tokenize_firstTokens_number : 1 ≤ (tokenize "017e" false).tokens.size ∧
    List.Forall₂ Token.Matches [⟨.decimalLiteral, "017", 1, 0, 0, false, false⟩]
      (tokenize "017" false).tokens.toList := by
  have hsize : 1 ≤ (tokenize "017e" false).tokens.size := by decide
  exact ⟨hsize, (tokenize_firstTokens hsize).2.1⟩

end ScriptTree
