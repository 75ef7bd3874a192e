import ScriptTree.Proofs.Significant
import ScriptTree.Proofs.WrittenForm

/-!
Parts and the tokens they are written with. `Spells` says that some parts are written with the
significant tokens of rank `p` up to `q`, each part with the tokens after those of the part before
it. The parts of a node inside are spelled in turn.
-/
namespace ScriptTree

namespace Input

/-- Where the token of rank `p` begins. -/
def startAt (input : Input) (tokens : Array Token) (p : Nat) : Nat :=
  TokenTable.offset (.ofTokens tokens) (input.indexAt p)

/-- Where the last token of a rank below `q` ends. -/
def stopAt (input : Input) (tokens : Array Token) (q : Nat) : Nat :=
  TokenTable.offset (.ofTokens tokens) (input.afterAt q)

/-- The range of the token of rank `p`. -/
def rangeAt (input : Input) (tokens : Array Token) (p : Nat) : Range :=
  .ofLength (input.startAt tokens p) (input.textAt p).utf8ByteSize

/-- The significant tokens of a list of tokens none of which is empty. Punctuation marks and
keywords are written as they are spelled. -/
structure Cuts (input : Input) (tokens : Array Token) : Prop extends input.Over tokens where
  length_pos : ∀ t ∈ tokens, 0 < t.length
  isToken : ∀ t ∈ tokens, t.kind.isToken = true
  spelled : ∀ t ∈ tokens, ∀ text, t.kind.text? = some text → t.text = text

variable {input : Input} {tokens : Array Token} {p q : Nat}

namespace Cuts
variable (cuts : input.Cuts tokens)
include cuts

theorem stopAt_le_startAt (p : Nat) : input.stopAt tokens p ≤ input.startAt tokens p :=
  TokenTable.offset_mono tokens (cuts.afterAt_le_indexAt p)

theorem stopAt_succ (h : p < input.significant.size) :
    input.stopAt tokens (p + 1) = input.startAt tokens p + (input.textAt p).utf8ByteSize := by
  obtain ⟨t, ht, _, _, htext⟩ := cuts.token_of_sees (sees_kindAt_of_lt h)
  rw [stopAt, afterAt_succ h, TokenTable.offset_succ ht, Token.length, htext, startAt]

theorem stopAt_succ_semicolon (h : input.Sees p .semicolon) :
    input.stopAt tokens (p + 1) = input.startAt tokens p + 1 := by
  obtain ⟨t, ht, hkind, _, htext⟩ := cuts.token_of_sees h
  have hspelled := cuts.spelled t (Array.mem_of_getElem? ht) ";" (by rw [hkind]; rfl)
  rw [cuts.stopAt_succ h.lt_size, ← htext, hspelled]
  rfl

theorem startAt_lt_stopAt_succ (h : p < input.significant.size) :
    input.startAt tokens p < input.stopAt tokens (p + 1) := by
  obtain ⟨t, ht, _, _, htext⟩ := cuts.token_of_sees (sees_kindAt_of_lt h)
  have hpos := cuts.length_pos t (Array.mem_of_getElem? ht)
  rw [Token.length, htext] at hpos
  rw [cuts.stopAt_succ h]
  omega

theorem textAt_isEmpty (h : p < input.significant.size) : (input.textAt p).isEmpty = false := by
  have hlt := cuts.startAt_lt_stopAt_succ h
  rw [cuts.stopAt_succ h] at hlt
  rw [String.isEmpty_eq_false_iff]
  intro hempty
  rw [hempty] at hlt
  exact Nat.lt_irrefl _ hlt

theorem startAt_mono (h : p ≤ q) : input.startAt tokens p ≤ input.startAt tokens q :=
  TokenTable.offset_mono tokens (cuts.indexAt_mono h)

theorem stopAt_mono (hq : q ≤ input.significant.size) (h : p ≤ q) :
    input.stopAt tokens p ≤ input.stopAt tokens q :=
  TokenTable.offset_mono tokens (cuts.afterAt_mono hq h)

theorem startAt_lt_stopAt (hq : q ≤ input.significant.size) (h : p < q) :
    input.startAt tokens p < input.stopAt tokens q :=
  Nat.lt_of_lt_of_le (cuts.startAt_lt_stopAt_succ (by omega)) (cuts.stopAt_mono hq h)

theorem startAt_lt (hp : p < input.significant.size) (h : p < q) :
    input.startAt tokens p < input.startAt tokens q :=
  calc input.startAt tokens p
      < input.stopAt tokens (p + 1) := cuts.startAt_lt_stopAt_succ hp
    _ ≤ input.startAt tokens (p + 1) := cuts.stopAt_le_startAt (p + 1)
    _ ≤ input.startAt tokens q := cuts.startAt_mono h

/-- Tokens are told apart by where they begin. -/
theorem startAt_inj (hp : p < input.significant.size) (hq : q < input.significant.size)
    (h : input.startAt tokens p = input.startAt tokens q) : p = q := by
  rcases Nat.lt_trichotomy p q with hlt | heq | hgt
  · have := cuts.startAt_lt hp hlt
    omega
  · exact heq
  · have := cuts.startAt_lt hq hgt
    omega

theorem rank_lt_of_startAt_lt (h : input.startAt tokens p < input.startAt tokens q) :
    p < q := by
  by_contra hle
  have := cuts.startAt_mono (Nat.le_of_not_lt hle)
  omega

end Cuts
end Input

/-- Range `r` goes from the token of rank `p` to the last token before rank `q`. -/
structure Input.Spans (input : Input) (tokens : Array Token) (p q : Nat) (r : Range) : Prop where
  lt : p < q
  le_size : q ≤ input.significant.size
  start_eq : r.start = input.startAt tokens p
  stop_eq : r.stop = input.stopAt tokens q

/-- Gap `[start, stop)` holds no token of kind `k` but that of a rank in `ranks`. -/
def Input.OnlyIn (input : Input) (tokens : Array Token) (k : Kind) (start stop : Nat)
    (ranks : Nat → Prop) : Prop :=
  ∀ j, input.Sees j k → start ≤ input.startAt tokens j → input.startAt tokens j < stop → ranks j

/-- A statement may end before the token of rank `p` without a semicolon. -/
def Input.MayEnd (input : Input) (p : Nat) : Prop :=
  input.significant.size ≤ p ∨ input.Sees p .closeBrace ∨ input.brokenAt p = true

/-- The token before rank `q` is the semicolon of a statement, or the statement may end there
without one. -/
def Input.Closes (input : Input) (q : Nat) : (semicolon : Option Nat) → Prop
  | some _ => input.Sees (q - 1) .semicolon
  | none => input.MayEnd q

/-- How a node that is written with the tokens of rank `p` up to `q` goes with what stands there
besides its parts. A statement without a semicolon ends where it may, and the second token of some
constructs, or the last of others, begins no line. A loop has an `each` just if that is its second
token. -/
def Input.Lays (input : Input) (p q : Nat) : Node → Prop
  | .expressionStatement _ _ semicolon | .constStatement _ _ _ _ semicolon
  | .throwStatement _ _ _ semicolon | .defaultXmlNamespaceStatement _ _ _ _ _ _ semicolon =>
    input.Closes q semicolon
  | .returnStatement _ _ value semicolon =>
    input.Closes q semicolon ∧ (value ≠ none → input.brokenAt (p + 1) = false)
  | .jumpStatement _ _ target semicolon =>
    input.Closes q semicolon ∧ (target ≠ none → input.brokenAt (p + 1) = false)
  | .keywordOperation _ word operand =>
    word.token = .yieldKeyword → (∀ r, operand ≠ .emptyExpression r) →
      input.brokenAt (p + 1) = false
  | .unary _ operator _ _ =>
    Node.isTrailingOperator operator = true → input.brokenAt (q - 1) = false
  | .forInStatement _ _ eachKeyword _ _ _ _ _ _ =>
    eachKeyword.isSome = true ↔ input.Sees (p + 1) .eachKeyword
  | _ => True

/-- Some parts are written with the tokens of rank `p` up to `q`. They belong to a node that gives
this leeway. -/
inductive SpellsWith (input : Input) (tokens : Array Token) :
    Leeway → Nat → Nat → List Part → Prop where
  | nil : SpellsWith input tokens leeway p p []
  | sign : input.Sees p k → SpellsWith input tokens leeway (p + 1) q parts →
      SpellsWith input tokens leeway p q (.sign (input.startAt tokens p) :: parts)
  | word : input.Sees p k → n.isWord = true → n.isNameless = false →
      n.range = input.rangeAt tokens p → SpellsWith input tokens leeway (p + 1) q parts →
      SpellsWith input tokens leeway p q (.node n :: parts)
  | inner : n.isWord = false → n.isScript = false → n.isComplete = true → input.Lays p m n →
      input.Spans tokens p m n.range → SpellsWith input tokens n.leeway p m n.parts →
      SpellsWith input tokens leeway m q parts →
      SpellsWith input tokens leeway p q (.node n :: parts)
  /-- Nothing, before a token. -/
  | hole : p < q → SpellsWith input tokens .clauses p q parts →
      SpellsWith input tokens .clauses p q (.node (.emptyAt (input.startAt tokens p)) :: parts)
  /-- A keyword and then nothing. -/
  | bare : input.Sees p .yieldKeyword → word = ⟨input.rangeAt tokens p, .yieldKeyword⟩ →
      SpellsWith input tokens .operand (p + 1) q parts → SpellsWith input tokens .operand p q
        (.node (.keyword word) :: .node (.emptyAt (input.stopAt tokens (p + 1))) :: parts)
  | filled : input.Sees p k → start ≤ input.startAt tokens p → input.startAt tokens p < stop →
      input.OnlyIn tokens k start stop (· = p) → SpellsWith input tokens leeway (p + 1) q parts →
      SpellsWith input tokens leeway p q (.gap k start stop :: parts)
  | unfilled : input.OnlyIn tokens k start stop (fun _ => False) →
      SpellsWith input tokens leeway p q parts →
      SpellsWith input tokens leeway p q (.gap k start stop :: parts)

/-- Some parts, none of which may be left out, are written with the tokens of rank `p` up to `q`. -/
abbrev Spells (input : Input) (tokens : Array Token) (p q : Nat) (parts : List Part) : Prop :=
  SpellsWith input tokens .nothing p q parts

/-- Node `n` is written with the tokens of rank `p` up to `q`. -/
structure Written (input : Input) (tokens : Array Token) (p q : Nat) (n : Node) : Prop where
  spans : input.Spans tokens p q n.range
  spells : ∀ {leeway : Leeway} {s : Nat} {parts : List Part},
    SpellsWith input tokens leeway q s parts → SpellsWith input tokens leeway p s (.node n :: parts)

variable {input : Input} {tokens : Array Token} {p q : Nat} {k : Kind} {n : Node}

theorem Input.Cuts.spans_rangeAt (cuts : input.Cuts tokens) (h : p < input.significant.size) :
    input.Spans tokens p (p + 1) (input.rangeAt tokens p) where
  lt := Nat.lt_succ_self p
  le_size := h
  start_eq := rfl
  stop_eq := (cuts.stopAt_succ h).symm

theorem written_word (cuts : input.Cuts tokens) (hsees : input.Sees p k) (hword : n.isWord = true)
    (hname : n.isNameless = false) (hrange : n.range = input.rangeAt tokens p) :
    Written input tokens p (p + 1) n where
  spans := by
    rw [hrange]
    exact cuts.spans_rangeAt hsees.lt_size
  spells h := .word hsees hword hname hrange h

theorem written_inner (hword : n.isWord = false) (hscript : n.isScript = false)
    (hcomplete : n.isComplete = true) (hlays : input.Lays p q n)
    (hspans : input.Spans tokens p q n.range)
    (hparts : SpellsWith input tokens n.leeway p q n.parts) : Written input tokens p q n where
  spans := hspans
  spells h := .inner hword hscript hcomplete hlays hspans hparts h

namespace SpellsWith
variable {leeway : Leeway} {m : Nat} {parts rest : List Part}

theorem le (h : SpellsWith input tokens leeway p q parts) : p ≤ q := by
  induction h with
  | nil => exact Nat.le_refl _
  | sign _ _ ih | word _ _ _ _ _ ih | filled _ _ _ _ _ ih | bare _ _ _ ih =>
    exact Nat.le_of_succ_le ih
  | inner _ _ _ _ hspans _ _ _ ih => exact Nat.le_trans (Nat.le_of_lt hspans.lt) ih
  | hole _ _ ih | unfilled _ _ ih => exact ih

theorem append (h : SpellsWith input tokens leeway p m parts)
    (hrest : SpellsWith input tokens leeway m q rest) :
    SpellsWith input tokens leeway p q (parts ++ rest) := by
  induction h with
  | nil => exact hrest
  | sign hsees _ ih => exact .sign hsees (ih hrest)
  | word hsees hword hname hrange _ ih => exact .word hsees hword hname hrange (ih hrest)
  | inner hword hscript hcomplete hlays hspans hparts _ _ ih =>
    exact .inner hword hscript hcomplete hlays hspans hparts (ih hrest)
  | hole hlt _ ih => exact .hole (Nat.lt_of_lt_of_le hlt hrest.le) (ih hrest)
  | bare hsees hword _ ih => exact .bare hsees hword (ih hrest)
  | filled hsees hstart hstop honly _ ih => exact .filled hsees hstart hstop honly (ih hrest)
  | unfilled honly _ ih => exact .unfilled honly (ih hrest)

end SpellsWith
end ScriptTree
