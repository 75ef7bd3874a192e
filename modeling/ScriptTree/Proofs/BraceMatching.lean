import Mathlib.Algebra.Ring.Int.Defs
import ScriptTree.Proofs.ModeStack
import ScriptTree.Proofs.TextCut

/-!
Whole runs of the scanner. Between any two calls the modes are in order, no counter ever falls below
zero, and the brace that ends an embedded expression is the one that matches the brace it began
with. This holds whether the tokens before a place are regarded, as in `tokenize`, or not, as in
`pieces`.
-/
namespace ScriptTree

namespace Mode

/-- Modes in order, before a text. Counted from the outermost one, literals and embedded expressions
alternate. An expression has an open brace, unless it is the innermost mode and its brace comes
next. -/
structure WellNested (modes : List Mode) (rest : List Char) : Prop where
  alternates : ∀ i m, modes.reverse[i]? = some m → (m.isXml = true ↔ i % 2 = 0)
  braces_pos : ∀ i b, modes[i]? = some (.embedded b) →
    1 ≤ b ∨ i = 0 ∧ b = 0 ∧ rest.head? = some '{'
  quote_eq : ∀ s, .xml s ∈ modes → s.quote = none
  depth_pos : ∀ s, .xml s ∈ modes → 1 ≤ s.depth

variable {modes modes' outer : List Mode} {rest : List Char} {k : Kind} {inXml : Bool}

theorem Stacked.length_mod (h : Stacked inXml modes) : modes.length % 2 = inXml.toNat := by
  induction h with
  | none => rfl
  | xml _ _ _ ih =>
    rw [List.length_cons, Nat.add_mod, ih]
    rfl
  | embedded _ _ ih =>
    rw [List.length_cons, Nat.add_mod, ih]
    rfl

/-- One more mode, of the other sort than the one around it. -/
theorem WellNested.cons {m : Mode} (h : WellNested outer [])
    (hsort : m.isXml = true ↔ outer.length % 2 = 0)
    (hbraces : ∀ b, m = .embedded b → 1 ≤ b ∨ b = 0 ∧ rest.head? = some '{')
    (hstate : ∀ s, m = .xml s → s.quote = none ∧ 1 ≤ s.depth) : WellNested (m :: outer) rest where
  alternates := by
    intro i m' hm'
    rw [List.reverse_cons, List.getElem?_append] at hm'
    split at hm'
    · exact h.alternates i m' hm'
    · rename_i hi
      rw [List.length_reverse] at hi hm'
      obtain ⟨hlt, rfl⟩ := List.getElem?_eq_some_iff.mp hm'
      obtain rfl : i = outer.length := by simp at hlt; omega
      simpa using hsort
  braces_pos := by
    intro i b hb
    cases i with
    | zero =>
      refine (hbraces b (Option.some.inj hb)).imp_right fun ⟨hzero, hnext⟩ => ?_
      exact ⟨rfl, hzero, hnext⟩
    | succ i =>
      refine (h.braces_pos i b hb).imp_right fun ⟨_, _, hnext⟩ => ?_
      cases hnext
  quote_eq := by
    intro s hs
    obtain rfl | hs := List.mem_cons.mp hs
    · exact (hstate s rfl).1
    · exact h.quote_eq s hs
  depth_pos := by
    intro s hs
    obtain rfl | hs := List.mem_cons.mp hs
    · exact (hstate s rfl).2
    · exact h.depth_pos s hs

theorem Stacked.wellNested (h : Stacked inXml modes) (rest : List Char) :
    WellNested modes rest := by
  induction h generalizing rest with
  | none => exact ⟨nofun, nofun, nofun, nofun⟩
  | xml hquote hdepth houter ih =>
    refine (ih []).cons (iff_of_true rfl houter.length_mod) nofun ?_
    rintro s ⟨⟩
    exact ⟨hquote, hdepth⟩
  | embedded hbraces houter ih =>
    refine (ih []).cons ?_ ?_ nofun
    · simp [isXml, houter.length_mod]
    · rintro b ⟨⟩
      exact .inl hbraces

theorem Settled.wellNested (h : Settled modes rest) : WellNested modes rest := by
  cases h with
  | stacked h => exact h.wellNested rest
  | opening houter hnext =>
    refine (houter.wellNested []).cons ?_ ?_ nofun
    · simp [isXml, houter.length_mod]
    · rintro b ⟨⟩
      exact .inr ⟨rfl, hnext⟩

/-- The modes once the end of the text has been met: it ends a literal that would go on there. -/
def afterEnd : List Mode → List Mode
  | .xml _ :: outer => outer
  | modes => modes

theorem Settled.afterEnd (h : Settled modes []) : Settled (afterEnd modes) [] := by
  cases h with
  | opening _ hnext => cases hnext
  | stacked h =>
    cases h with
    | none => exact .stacked .none
    | xml _ _ houter => exact .stacked houter
    | embedded hbraces houter => exact .stacked (.embedded hbraces houter)

/-- The end is met only once. -/
theorem Settled.afterEnd_afterEnd (h : Settled modes []) :
    Mode.afterEnd (Mode.afterEnd modes) = Mode.afterEnd modes := by
  cases h with
  | opening => rfl
  | stacked h =>
    cases h with
    | none => rfl
    | xml _ _ houter => cases houter <;> rfl
    | embedded => rfl

end Mode

/-- A place of a scan, between two calls of the scanner. -/
structure Stage where
  head : Head
  modes : List Mode
  afterOperand : Bool

/-- Stages of which each follows from the one before by a call, with the kinds of the tokens. -/
inductive Run [Alphabet] (xmlLiterals : Bool) : List Stage → List Kind → Prop where
  | ended : head.rest = [] → Run xmlLiterals [⟨head, modes, operand⟩] []
  | call : head.scan xmlLiterals operand modes = some x → x.token = some r →
      Run xmlLiterals (⟨x.stop, x.modes, operand'⟩ :: later) kinds →
      Run xmlLiterals (⟨head, modes, operand⟩ :: ⟨x.stop, x.modes, operand'⟩ :: later)
        (r.kind :: kinds)

/-- At the end of the input the call gives no token, and there only. -/
theorem Head.scan_eq_none [Alphabet] {h : Head} {x : Scanned} {xmlLiterals afterOperand : Bool}
    {modes : List Mode} (hscan : h.scan xmlLiterals afterOperand modes = some x)
    (htoken : x.token = none) : h.rest = [] ∧ x.modes = Mode.afterEnd modes := by
  obtain ⟨pos, text⟩ := h
  cases text with
  | nil =>
    rw [scan_end] at hscan
    cases hscan
    refine ⟨rfl, ?_⟩
    rcases modes with _ | ⟨_ | _, _⟩
    · rfl
    · rfl
    · rfl
  | cons c rest =>
    rw [scan_eq] at hscan
    cases hscan
    cases htoken

namespace Caller
variable {σ : Type}

def stageAt (caller : Caller σ) (x : σ × Head) : Stage :=
  ⟨x.2, caller.modes x.1, caller.afterOperand x.1⟩

/-- The stages of a loop of calls: wherever the scanner is called. -/
def stages [Alphabet] (caller : Caller σ) (xmlLiterals : Bool) (text : String) (s : σ) :
    List Stage :=
  let h : Head := { rest := text.toList }
  (turnStates (caller.turn xmlLiterals) h.turnLimit (s, h)).map caller.stageAt

/-- A loop that keeps the modes of the scanner, and the kinds of the tokens. -/
structure Keeps (caller : Caller σ) (kinds : σ → List Kind) : Prop where
  modes_eq : ∀ {s s' : σ} {h : Head} {x : Scanned}, caller.keep s h x = some s' →
    caller.modes s' = x.modes
  kinds_eq : ∀ {s s' : σ} {h : Head} {x : Scanned}, caller.keep s h x = some s' →
    kinds s' = kinds s ++ (x.token.map (·.kind)).toList

variable [Alphabet] {caller : Caller σ} {kinds : σ → List Kind} {xmlLiterals : Bool} {s s' : σ}
  {h : Head}

theorem turn_eq_some {t : Turn (σ × Head) σ} (ht : caller.turn xmlLiterals (s, h) = some t) :
    ∃ x s', h.scan xmlLiterals (caller.afterOperand s) (caller.modes s) = some x ∧
      caller.keep s h x = some s' ∧
        t = if x.token.isSome then .again (s', x.stop) else .done s' := by
  simp only [turn, Option.bind_eq_bind, Option.bind_eq_some_iff] at ht
  obtain ⟨x, hscan, s', hkeep, ht⟩ := ht
  exact ⟨x, s', hscan, hkeep, (Option.some.inj ht).symm⟩

/-- The states of a loop make a run with the kinds that it adds. What is left to be seen after the
last stage is what the end of the input does to the modes. -/
theorem turnStates_run (hkeeps : caller.Keeps kinds) {limit : Nat}
    (hturns : turns (caller.turn xmlLiterals) limit (s, h) = some s') :
    ∃ later ks last, (turnStates (caller.turn xmlLiterals) limit (s, h)).map caller.stageAt =
        caller.stageAt (s, h) :: later ∧
      kinds s' = kinds s ++ ks ∧
      Run xmlLiterals (caller.stageAt (s, h) :: later) ks ∧
      (caller.stageAt (s, h) :: later).getLast? = some last ∧
      caller.modes s' = Mode.afterEnd last.modes := by
  induction limit generalizing s h with
  | zero => cases hturns
  | succ limit ih =>
    rw [turns] at hturns
    rw [turnStates]
    cases ht : caller.turn xmlLiterals (s, h) with
    | none => simp [ht] at hturns
    | some t =>
      obtain ⟨x, s₁, hscan, hkeep, rfl⟩ := turn_eq_some ht
      have hmodes := hkeeps.modes_eq hkeep
      have hkinds := hkeeps.kinds_eq hkeep
      cases htoken : x.token with
      | none =>
        rw [ht, htoken] at hturns
        obtain rfl : s₁ = s' := by simpa using hturns
        obtain ⟨hend, hafter⟩ := Head.scan_eq_none hscan htoken
        refine ⟨[], [], caller.stageAt (s, h), rfl, ?_, .ended hend, rfl, hmodes.trans hafter⟩
        rw [hkinds, htoken]
        rfl
      | some r =>
        rw [ht, htoken] at hturns
        obtain ⟨later, ks, last, hstages, hks, hrun, hlast, hafter⟩ := ih hturns
        refine ⟨caller.stageAt (s₁, x.stop) :: later, r.kind :: ks, last, ?_, ?_, ?_, ?_, hafter⟩
        · rw [← hstages]
          rfl
        · rw [hks, hkinds, htoken, List.append_assoc]
          rfl
        · unfold stageAt at hrun ⊢
          rw [hmodes] at hrun ⊢
          exact .call hscan htoken hrun
        · rw [List.getLast?_cons_cons]
          exact hlast

end Caller

theorem Scan.passText_modes (s : Scan) (next : Option Char) (text : List Char) :
    (s.passText next text).modes = s.modes := by
  induction text generalizing s with
  | nil => rfl
  | cons c rest ih => exact ih _

theorem Scan.passText_tokens (s : Scan) (next : Option Char) (text : List Char) :
    (s.passText next text).tokens = s.tokens := by
  induction text generalizing s with
  | nil => rfl
  | cons c rest ih => exact ih _

/-- A call adds the token that it gives. -/
theorem Scan.keep_eq_some {s s' : Scan} {h : Head} {x : Scanned} (hkeep : s.keep h x = some s') :
    s'.modes = x.modes ∧
      s'.tokens.toList.map (·.kind) =
        s.tokens.toList.map (·.kind) ++ (x.token.map (·.kind)).toList := by
  have hreport : (if x.cutShort then s.report 0 .unterminatedXml else s).tokens = s.tokens := by
    split <;> rfl
  unfold keep at hkeep
  dsimp only at hkeep
  split at hkeep
  · rename_i htoken
    cases hkeep
    refine ⟨rfl, ?_⟩
    dsimp only
    rw [hreport, htoken]
    simp
  · rename_i r htoken
    obtain ⟨text, -, hs'⟩ := Option.bind_eq_some_iff.mp hkeep
    cases hs'
    rw [passText_modes, passText_tokens]
    refine ⟨rfl, ?_⟩
    dsimp only
    rw [push_tokens, hreport, htoken]
    simp [tokenOf]

/-- The scan of `tokenize`. -/
theorem Scan.caller_keeps : Scan.caller.Keeps (fun s => s.tokens.toList.map (·.kind)) where
  modes_eq hkeep := (keep_eq_some hkeep).1
  kinds_eq hkeep := (keep_eq_some hkeep).2

theorem Pieces.keep_eq_some {p p' : Pieces} {h : Head} {x : Scanned}
    (hkeep : p.keep h x = some p') : p'.modes = x.modes ∧
      p'.pieces.toList.map Prod.fst =
        p.pieces.toList.map Prod.fst ++ (x.token.map (·.kind)).toList := by
  unfold keep at hkeep
  dsimp only at hkeep
  split at hkeep
  · rename_i htoken
    cases hkeep
    refine ⟨rfl, ?_⟩
    rw [htoken]
    split <;> simp
  · rename_i r htoken
    cases hkeep
    refine ⟨rfl, ?_⟩
    rw [htoken]
    split <;> simp

/-- The scan of `pieces`, for which an operand may begin anywhere. -/
theorem Pieces.caller_keeps : Pieces.caller.Keeps (fun p => p.pieces.toList.map Prod.fst) where
  modes_eq hkeep := (keep_eq_some hkeep).1
  kinds_eq hkeep := (keep_eq_some hkeep).2

/-- What a lexeme adds to the number of open braces. -/
def Kind.braceWeight : Kind → Int
  | .openBrace => 1
  | .closeBrace => -1
  | _ => 0

theorem Kind.braceWeight_eq_zero {k : Kind} (hopen : k ≠ .openBrace) (hclose : k ≠ .closeBrace) :
    k.braceWeight = 0 := by
  unfold braceWeight
  split
  · exact absurd rfl hopen
  · exact absurd rfl hclose
  · rfl

/-- The braces opened by the lexemes from place `i` up to `j`, less those closed. -/
def braceBalance (kinds : List Kind) (i j : Nat) : Int :=
  (((kinds.take j).drop i).map Kind.braceWeight).sum

/-- The brace at `j` closes the one at `i`: what is opened between them is closed there, and nothing
else is. -/
structure Matching (kinds : List Kind) (i j : Nat) : Prop where
  opens : kinds[i]? = some .openBrace
  closes : kinds[j]? = some .closeBrace
  lt : i < j
  balanced : braceBalance kinds (i + 1) j = 0
  nonneg : ∀ m, i < m → m ≤ j → 0 ≤ braceBalance kinds (i + 1) m

section
variable {kinds : List Kind} {i j : Nat} {k : Kind}

theorem braceBalance_self (kinds : List Kind) (i : Nat) : braceBalance kinds i i = 0 := by
  have h : (kinds.take i).drop i = [] := List.drop_eq_nil_of_le (List.length_take_le i kinds)
  simp [braceBalance, h]

theorem braceBalance_succ (hij : i ≤ j) (hk : kinds[j]? = some k) :
    braceBalance kinds i (j + 1) = braceBalance kinds i j + k.braceWeight := by
  obtain ⟨hlt, -⟩ := List.getElem?_eq_some_iff.mp hk
  have hlen : i ≤ (kinds.take j).length := by
    rw [List.length_take]
    omega
  unfold braceBalance
  rw [List.take_add_one, List.drop_append_of_le_length hlen, hk]
  simp

theorem braceBalance_first (hij : i < j) (hk : kinds[i]? = some k) :
    braceBalance kinds i j = k.braceWeight + braceBalance kinds (i + 1) j := by
  obtain ⟨hlt, rfl⟩ := List.getElem?_eq_some_iff.mp hk
  have hlen : i < (kinds.take j).length := by
    rw [List.length_take]
    omega
  unfold braceBalance
  rw [List.drop_eq_getElem_cons hlen, List.getElem_take]
  simp

end

namespace Mode

/-- The braces that are open in all embedded expressions. -/
def openBraces : List Mode → Int
  | [] => 0
  | .embedded b :: outer => b + openBraces outer
  | .xml _ :: outer => openBraces outer

theorem openBraces_nonneg (modes : List Mode) : 0 ≤ openBraces modes := by
  induction modes with
  | nil => exact Int.le_refl 0
  | cons m outer ih =>
    cases m with
    | xml => exact ih
    | embedded b => exact Int.add_nonneg (Int.natCast_nonneg b) ih

variable {modes modes' outer inner : List Mode} {rest : List Char} {k : Kind} {b : Nat}

/-- An expression that is open after a lexeme was open before it, and the braces inside it are
counted, or the lexeme is the brace with which it begins. -/
theorem Change.cases_open (h : Change rest modes k modes')
    (hmodes' : modes' = inner ++ .embedded b :: outer) (hb : 1 ≤ b) :
    (k = .openBrace ∧ inner = [] ∧ b = 1 ∧ (modes = outer ∨ modes = .embedded 0 :: outer)) ∨
      ∃ inner₀ b₀, modes = inner₀ ++ .embedded b₀ :: outer ∧ 1 ≤ b₀ ∧
        openBraces inner + b = openBraces inner₀ + b₀ + k.braceWeight := by
  cases h with
  | keep _ hk =>
    refine .inr ⟨inner, b, hmodes', hb, ?_⟩
    obtain ⟨hopen, hclose⟩ | rfl := hk
    · rw [Kind.braceWeight_eq_zero hopen hclose, Int.add_zero]
    · exact absurd hmodes'.symm (by simp)
  | enter houter =>
    obtain ⟨rfl, hnew⟩ | ⟨inner', rfl, hold⟩ := List.cons_eq_append_iff.mp hmodes'
    · cases hnew
      exact .inl ⟨rfl, rfl, rfl, .inl rfl⟩
    · refine .inr ⟨inner', b, hold, hb, ?_⟩
      simp only [openBraces, Kind.braceWeight]
      omega
  | @deeper _ b₀ houter =>
    obtain ⟨rfl, hnew⟩ | ⟨inner', rfl, hold⟩ := List.cons_eq_append_iff.mp hmodes'
    · cases hnew
      cases b₀ with
      | zero => exact .inl ⟨rfl, rfl, rfl, .inr rfl⟩
      | succ b₀ =>
        refine .inr ⟨[], b₀ + 1, rfl, Nat.le_add_left 1 b₀, ?_⟩
        simp [openBraces, Kind.braceWeight]
    · refine .inr ⟨.embedded b₀ :: inner', b, by rw [hold]; rfl, hb, ?_⟩
      simp only [openBraces, Kind.braceWeight]
      omega
  | @shallower _ b₀ houter =>
    obtain ⟨rfl, hnew⟩ | ⟨inner', rfl, hold⟩ := List.cons_eq_append_iff.mp hmodes'
    · cases hnew
      refine .inr ⟨[], b₀ + 2, rfl, Nat.le_add_left 1 _, ?_⟩
      simp only [openBraces, Kind.braceWeight]
      omega
    · refine .inr ⟨.embedded (b₀ + 2) :: inner', b, by rw [hold]; rfl, hb, ?_⟩
      simp only [openBraces, Kind.braceWeight]
      omega
  | leave houter =>
    refine .inr ⟨.embedded 1 :: inner, b, by rw [hmodes']; rfl, hb, ?_⟩
    simp only [openBraces, Kind.braceWeight]
    omega
  | embed houter hmodes hs =>
    obtain ⟨rfl, hnew⟩ | ⟨inner', rfl, htail⟩ := List.cons_eq_append_iff.mp hmodes'
    · cases hnew
      cases hb
    obtain ⟨rfl, hnew⟩ | ⟨inner'', rfl, hold⟩ := List.cons_eq_append_iff.mp htail
    · cases hnew
    obtain rfl | ⟨s', rfl⟩ := hmodes
    · refine .inr ⟨inner'', b, hold, hb, ?_⟩
      simp only [openBraces, Kind.braceWeight]
      omega
    · refine .inr ⟨.xml s' :: inner'', b, by rw [hold]; rfl, hb, ?_⟩
      simp only [openBraces, Kind.braceWeight]
      omega
  | @close _ s houter =>
    refine .inr ⟨.xml s :: inner, b, by rw [hmodes']; rfl, hb, ?_⟩
    simp only [openBraces, Kind.braceWeight]
    omega

/-- Only a closing brace leaves an expression, and only the last one. -/
theorem Change.leaves (h : Change rest (.embedded b :: modes') k modes') :
    k = .closeBrace ∧ b = 1 := by
  generalize hmodes : Mode.embedded b :: modes' = modes at h
  have hlength : modes'.length + 1 = modes.length := congrArg List.length hmodes
  cases h with
  | keep => omega
  | enter => simp at hlength; omega
  | deeper => simp at hlength
  | shallower => simp at hlength
  | leave =>
    cases hmodes
    exact ⟨rfl, rfl⟩
  | embed _ hor =>
    obtain rfl | ⟨s', rfl⟩ := hor
    · simp at hlength; omega
    · simp at hlength; omega
  | close => cases hmodes

end Mode

namespace Run
open Mode
variable [Alphabet] {xmlLiterals : Bool} {stages : List Stage} {kinds : List Kind} {s s' : Stage}
  {k : Kind} {j : Nat}

/-- A run that begins in settled modes stays in settled ones. -/
theorem settled (h : Run xmlLiterals stages kinds)
    (hfirst : ∀ s, stages.head? = some s → Settled s.modes s.head.rest) :
    ∀ s ∈ stages, Settled s.modes s.head.rest := by
  induction h with
  | ended => simpa using hfirst
  | call hscan htoken hlater ih =>
    have hfirst := hfirst _ rfl
    refine List.forall_mem_cons.mpr ⟨hfirst, ih ?_⟩
    rintro s ⟨⟩
    exact (Head.scan_change hfirst hscan htoken).settled

theorem settled_of_first {first : Stage} (h : Run xmlLiterals stages kinds)
    (hfirst : stages.head? = some first) (hempty : first.modes = []) :
    ∀ s ∈ stages, Settled s.modes s.head.rest := by
  apply h.settled
  intro s hs
  obtain rfl : first = s := Option.some.inj (hfirst.symm.trans hs)
  exact hempty ▸ .stacked .none

/-- Between two stages the modes change as the lexeme there makes them. -/
theorem change (h : Run xmlLiterals stages kinds)
    (hsettled : ∀ s ∈ stages, Settled s.modes s.head.rest) (hs : stages[j]? = some s)
    (hs' : stages[j + 1]? = some s') :
    ∃ k, kinds[j]? = some k ∧ Change s'.head.rest s.modes k s'.modes := by
  induction h generalizing j with
  | ended => cases j <;> cases hs'
  | call hscan htoken hlater ih =>
    obtain ⟨hfirst, hrest⟩ := List.forall_mem_cons.mp hsettled
    cases j with
    | zero =>
      cases hs
      cases hs'
      exact ⟨_, rfl, Head.scan_change hfirst hscan htoken⟩
    | succ j => exact ih hrest hs hs'

theorem rest_of_getLast? (h : Run xmlLiterals stages kinds) (hs : stages.getLast? = some s) :
    s.head.rest = [] := by
  induction h with
  | ended hend =>
    cases hs
    exact hend
  | call _ _ _ ih => exact ih (by simpa [List.getLast?_cons_cons] using hs)

end Run

/-- The expression with the modes `outer` around it that is open at stage `n` began with the lexeme
at stage `i`, a brace, and has been open since. -/
structure Began (stages : List Stage) (kinds : List Kind) (outer : List Mode) (i n : Nat) :
    Prop where
  lt : i < n
  brace : kinds[i]? = some .openBrace
  before : ∃ s, stages[i]? = some s ∧ (s.modes = outer ∨ s.modes = .embedded 0 :: outer)
  after : ∃ s, stages[i + 1]? = some s ∧ s.modes = .embedded 1 :: outer
  open_since : ∀ m, i < m → m ≤ n → ∃ s inner b, stages[m]? = some s ∧ 1 ≤ b ∧
    s.modes = inner ++ .embedded b :: outer ∧
    braceBalance kinds i m = Mode.openBraces inner + b

namespace Began
open Mode
variable {stages : List Stage} {kinds : List Kind} {outer inner inner₀ : List Mode} {i n b b₀ : Nat}
  {s s' : Stage} {k : Kind}

theorem balance_eq (h : Began stages kinds outer i n) (hs : stages[n]? = some s)
    (hmodes : s.modes = inner ++ .embedded b :: outer) :
    braceBalance kinds i n = openBraces inner + b := by
  obtain ⟨s', inner', b', hs', -, hmodes', hbalance⟩ := h.open_since n h.lt (Nat.le_refl n)
  obtain rfl : s' = s := Option.some.inj (hs'.symm.trans hs)
  have hsame : inner ++ .embedded b :: outer = inner' ++ .embedded b' :: outer :=
    hmodes.symm.trans hmodes'
  obtain ⟨rfl, hcons⟩ := List.append_inj' hsame (by simp)
  cases hcons
  exact hbalance

/-- The expression begins with the lexeme just read. -/
theorem start (hs : stages[n]? = some s) (hs' : stages[n + 1]? = some s')
    (hk : kinds[n]? = some .openBrace) (hbefore : s.modes = outer ∨ s.modes = .embedded 0 :: outer)
    (hafter : s'.modes = .embedded 1 :: outer) : Began stages kinds outer n (n + 1) where
  lt := Nat.lt_succ_self n
  brace := hk
  before := ⟨s, hs, hbefore⟩
  after := ⟨s', hs', hafter⟩
  open_since := by
    intro m hlt hle
    obtain rfl : m = n + 1 := by omega
    refine ⟨s', [], 1, hs', Nat.le_refl 1, hafter, ?_⟩
    rw [braceBalance_succ (Nat.le_refl n) hk, braceBalance_self]
    rfl

/-- The expression stays open. -/
theorem step (h : Began stages kinds outer i n) (hs : stages[n]? = some s)
    (hs' : stages[n + 1]? = some s') (hk : kinds[n]? = some k)
    (hmodes : s.modes = inner₀ ++ .embedded b₀ :: outer)
    (hmodes' : s'.modes = inner ++ .embedded b :: outer) (hb : 1 ≤ b)
    (hcount : openBraces inner + b = openBraces inner₀ + b₀ + k.braceWeight) :
    Began stages kinds outer i (n + 1) where
  lt := Nat.lt_succ_of_lt h.lt
  brace := h.brace
  before := h.before
  after := h.after
  open_since := by
    intro m hlt hle
    obtain hle | rfl := Nat.le_succ_iff.mp hle
    · exact h.open_since m hlt hle
    · refine ⟨s', inner, b, hs', hb, hmodes', ?_⟩
      rw [braceBalance_succ (Nat.le_of_lt h.lt) hk, h.balance_eq hs hmodes, hcount]

/-- The brace that leaves the expression matches the one it began with. -/
theorem matching (h : Began stages kinds outer i n) (hs : stages[n]? = some s)
    (hmodes : s.modes = .embedded 1 :: outer) (hk : kinds[n]? = some .closeBrace) :
    Matching kinds i n where
  opens := h.brace
  closes := hk
  lt := h.lt
  balanced := by
    have hmodes : s.modes = [] ++ .embedded 1 :: outer := hmodes
    have hbalance := h.balance_eq hs hmodes
    rw [braceBalance_first h.lt h.brace] at hbalance
    simp only [openBraces, Kind.braceWeight] at hbalance
    omega
  nonneg := by
    intro m hlt hle
    obtain ⟨_, inner, b, -, hb, -, hbalance⟩ := h.open_since m hlt hle
    have hinner := openBraces_nonneg inner
    rw [braceBalance_first hlt h.brace] at hbalance
    simp only [Kind.braceWeight] at hbalance
    omega

end Began

/-- In a run from no modes every open expression began with a brace. -/
theorem Run.began [Alphabet] {xmlLiterals : Bool} {stages : List Stage} {kinds : List Kind}
    {first : Stage} (h : Run xmlLiterals stages kinds) (hfirst : stages.head? = some first)
    (hempty : first.modes = []) {n : Nat} {s : Stage} (hs : stages[n]? = some s)
    {inner outer : List Mode} {b : Nat} (hmodes : s.modes = inner ++ .embedded b :: outer)
    (hb : 1 ≤ b) : ∃ i, Began stages kinds outer i n := by
  have hsettled := h.settled_of_first hfirst hempty
  -- The induction goes back lexeme by lexeme to the one that opened the expression.
  induction n generalizing s inner b with
  | zero =>
    obtain rfl : first = s := by
      rw [← List.head?_eq_getElem?, hfirst] at hs
      exact Option.some.inj hs
    exact absurd (hempty.symm.trans hmodes) (by simp)
  | succ n ih =>
    obtain ⟨hlt, -⟩ := List.getElem?_eq_some_iff.mp hs
    have hs₀ := List.getElem?_eq_getElem (Nat.lt_of_succ_lt hlt)
    obtain ⟨k, hk, hchange⟩ := h.change hsettled hs₀ hs
    obtain ⟨rfl, rfl, rfl, hbefore⟩ | ⟨inner₀, b₀, hmodes₀, hb₀, hcount⟩ :=
      hchange.cases_open hmodes hb
    · exact ⟨n, .start hs₀ hs hk hbefore hmodes⟩
    · obtain ⟨i, hi⟩ := ih hs₀ hmodes₀ hb₀
      exact ⟨i, hi.step hs₀ hs hk hmodes₀ hmodes hb hcount⟩

/-- How a scan of a text goes, stage by stage. -/
structure Orderly [Alphabet] (xmlLiterals : Bool) (text : List Char) (stages : List Stage)
    (kinds : List Kind) : Prop where
  first : stages.head? = some ⟨{ rest := text }, [], false⟩
  run : Run xmlLiterals stages kinds
  wellNested : ∀ s ∈ stages, Mode.WellNested s.modes s.head.rest
  /-- The end may be met again and again. -/
  ended : ∀ s, stages.getLast? = some s → Mode.WellNested (Mode.afterEnd s.modes) [] ∧
    Mode.afterEnd (Mode.afterEnd s.modes) = Mode.afterEnd s.modes
  /-- A brace that is counted off has been counted. -/
  braces_pos : ∀ s ∈ stages, s.head.char? = some '}' →
    ∀ b outer, s.modes = .embedded b :: outer → 1 ≤ b
  /-- An element that is closed in XML text has been opened. -/
  depth_pos : ∀ s ∈ stages, ∀ state,
    s.head.markup? xmlLiterals s.afterOperand s.modes = some state →
    (∃ outer next, s.head.scan xmlLiterals s.afterOperand s.modes =
      (s.head.scanXml state outer).bind next) ∧
    ∀ x ∈ turnStates XmlState.turn s.head.turnLimit (state, s.head), ∀ c rest,
      x.2.rest = c :: rest → x.1.closesElement c rest = true → 1 ≤ x.1.depth
  /-- Where an expression is left, the brace that does so matches the one it began with. -/
  matching : ∀ j s s', stages[j]? = some s → stages[j + 1]? = some s' →
    ∀ b, s.modes = .embedded b :: s'.modes →
    ∃ i, Began stages kinds s'.modes i j ∧ Matching kinds i j

theorem Run.orderly [Alphabet] {xmlLiterals : Bool} {text : List Char} {stages : List Stage}
    {kinds : List Kind} (h : Run xmlLiterals stages kinds)
    (hfirst : stages.head? = some ⟨{ rest := text }, [], false⟩) :
    Orderly xmlLiterals text stages kinds := by
  have hsettled := h.settled_of_first hfirst rfl
  refine ⟨hfirst, h, fun s hs => (hsettled s hs).wellNested, ?_, ?_, ?_, ?_⟩
  · intro s hs
    have hend := hsettled s (List.mem_of_getLast? hs)
    rw [h.rest_of_getLast? hs] at hend
    exact ⟨hend.afterEnd.wellNested, hend.afterEnd_afterEnd⟩
  · intro s hs hnext b outer hmodes
    obtain hb | ⟨-, -, hopen⟩ := (hsettled s hs).wellNested.braces_pos 0 b (by rw [hmodes]; rfl)
    · exact hb
    · exact absurd (Option.some.inj (hnext.symm.trans hopen)) (by decide)
  · intro s hs state hmarkup
    exact ⟨Head.scan_of_markup? hmarkup,
      Head.depth_pos_of_markup? (hsettled s hs) hmarkup s.head.turnLimit⟩
  · intro j s s' hs hs' b hmodes
    obtain ⟨k, hk, hchange⟩ := h.change hsettled hs hs'
    rw [hmodes] at hchange
    obtain ⟨rfl, rfl⟩ := hchange.leaves
    have hopen : s.modes = [] ++ .embedded 1 :: s'.modes := hmodes
    obtain ⟨i, hi⟩ := h.began hfirst rfl hs hopen (Nat.le_refl 1)
    exact ⟨i, hi, hi.matching hs hmodes hk⟩

theorem Caller.orderly [Alphabet] {σ : Type} {caller : Caller σ} {kinds : σ → List Kind}
    (hkeeps : caller.Keeps kinds) {xmlLiterals : Bool} {text : String} {s s' : σ}
    (hmodes : caller.modes s = []) (hoperand : caller.afterOperand s = false)
    (hkinds : kinds s = []) (hrun : caller.run xmlLiterals text s = some s') :
    Orderly xmlLiterals text.toList (caller.stages xmlLiterals text s) (kinds s') ∧
      Mode.WellNested (caller.modes s') [] := by
  obtain ⟨later, ks, last, hstages, hks, hrun, hlast, hafter⟩ := turnStates_run hkeeps hrun
  rw [hkinds, List.nil_append] at hks
  have horderly :
      Orderly xmlLiterals text.toList (caller.stages xmlLiterals text s) (kinds s') := by
    rw [stages, hstages, hks]
    apply hrun.orderly
    rw [stageAt, hmodes, hoperand]
    rfl
  refine ⟨horderly, ?_⟩
  rw [hafter]
  exact (horderly.ended last (by rw [stages, hstages, hlast])).1

/-- Every scan of every text is orderly, with or without regard to the tokens before a place, and
with or without XML literals. -/
theorem scan_modes_orderly [Alphabet] (text : String) (xmlLiterals : Bool) :
    Orderly xmlLiterals text.toList (Scan.caller.stages xmlLiterals text {})
      ((tokenize text xmlLiterals).tokens.toList.map (·.kind)) ∧
    Orderly xmlLiterals text.toList (Pieces.caller.stages xmlLiterals text {})
      ((pieces text xmlLiterals).pieces.toList.map Prod.fst) ∧
    ∃ s, Scan.caller.run xmlLiterals text {} = some s ∧ Mode.WellNested s.modes [] := by
  have hscan := Caller.orderly Scan.caller_keeps rfl rfl rfl (Scan.run_eq xmlLiterals text {})
  have hpieces := Caller.orderly Pieces.caller_keeps rfl rfl rfl (Pieces.run_eq xmlLiterals text)
  refine ⟨?_, ?_, _, Scan.run_eq xmlLiterals text {}, hscan.2⟩
  · rw [tokenize_eq]
    dsimp only
    rw [Scan.finish_tokens]
    exact hscan.1
  · rw [pieces_eq]
    exact hpieces.1

end ScriptTree
