import ScriptTree.Proofs.ScannerCalls

/-!
The modes of a scan. XML literals and the expressions embedded in them nest in each other, and the
modes alternate between the two. `Mode.Change` lists what a lexeme may do to the modes; from it
follows that they stay in order and that no counter is decreased below zero.
-/
namespace ScriptTree

namespace XmlState

/-- Whether a character ends the tag with which an element is closed. -/
def closesElement (s : XmlState) (c : Char) (rest : List Char) : Bool :=
  s.quote.isNone && s.inTag && (c == '/' && rest.head? == some '>' || c == '>' && s.closing)

/-- What a character of XML text does. Only where an element is closed the number of open elements
goes down. -/
inductive Does (s : XmlState) (c : Char) (rest : List Char) : XmlStep → Prop where
  | embed : s.quote = none → c = '{' → Does s c rest .embed
  | close : s.closesElement c rest = true → Does s c rest (s.leaveElement.proceedOrFinish more)
  | pass : c = '<' → Does s c rest (s.proceedOrFinish more)
  | proceed : s.depth ≤ s'.depth → Does s c rest (.proceed more s')

variable {s s' : XmlState} {c : Char} {rest text : List Char} {n more skip : Nat}

theorem step_does (s : XmlState) (c : Char) (rest : List Char) : s.Does c rest (s.step c rest) := by
  unfold step
  split
  · refine .proceed ?_
    split <;> exact Nat.le_refl _
  rename_i hquote
  split
  · rename_i hbrace
    exact .embed hquote (beq_iff_eq.mp hbrace)
  split
  · rename_i htag
    unfold tagStep
    split
    · exact .proceed (Nat.le_refl _)
    split
    · rename_i hslash
      exact .close (by simp [closesElement, hquote, htag, hslash])
    split
    · rename_i hangle
      split
      · rename_i hclosing
        exact .close (by simp [closesElement, hquote, htag, hangle, hclosing])
      · exact .proceed (Nat.le_refl _)
    · exact .proceed (Nat.le_refl _)
  split
  · rename_i hangle
    unfold bracketStep
    split
    · split
      · exact .pass (beq_iff_eq.mp hangle)
      · exact .proceed (Nat.le_refl _)
    · split
      · exact .proceed (Nat.le_refl _)
      · exact .proceed (Nat.le_succ _)
  · exact .proceed (Nat.le_refl _)

theorem depth_pos_of_proceedOrFinish (h : s.proceedOrFinish n = .proceed more s') :
    1 ≤ s'.depth := by
  unfold proceedOrFinish at h
  split at h
  · cases h
  · rename_i hdepth
    cases h
    exact Nat.one_le_iff_ne_zero.mpr (by simpa using hdepth)

theorem proceedOrFinish_ne_embed : s.proceedOrFinish n ≠ .embed := by
  unfold proceedOrFinish
  split <;> nofun

/-- As long as a literal goes on, an element is open. -/
theorem depth_pos_of_step (hs : 1 ≤ s.depth) (h : s.step c rest = .proceed more s') :
    1 ≤ s'.depth := by
  have hdoes := s.step_does c rest
  generalize hx : s.step c rest = x at hdoes
  cases hdoes with
  | embed => cases hx.symm.trans h
  | close => exact depth_pos_of_proceedOrFinish (hx.symm.trans h)
  | pass => exact depth_pos_of_proceedOrFinish (hx.symm.trans h)
  | proceed hle =>
    cases hx.symm.trans h
    exact Nat.le_trans hs hle

theorem quote_of_step (h : s.step c rest = .embed) : s.quote = none ∧ c = '{' := by
  have hdoes := s.step_does c rest
  generalize hx : s.step c rest = x at hdoes
  cases hdoes with
  | embed hquote hbrace => exact ⟨hquote, hbrace⟩
  | close => exact absurd (hx.symm.trans h) proceedOrFinish_ne_embed
  | pass => exact absurd (hx.symm.trans h) proceedOrFinish_ne_embed
  | proceed => cases hx.symm.trans h

/-- Where an expression is embedded: outside quotes, inside an element, and before a brace. -/
structure Embeds (s : XmlState) (rest : List Char) : Prop where
  quote_eq : s.quote = none
  depth_pos : 1 ≤ s.depth
  brace_next : rest.head? = some '{'

theorem embeds_of_stretch (hs : 1 ≤ s.depth) (h : stretch skip s text = (n, .embedded s')) :
    s'.Embeds (text.drop n) := by
  fun_induction stretch skip s text generalizing n with
  | case1 => cases h
  | case2 s skip c rest m e hrest ih =>
    cases h
    exact ih hs hrest
  | case3 s c rest hstep =>
    cases h
    obtain ⟨hquote, rfl⟩ := quote_of_step hstep
    exact ⟨hquote, hs, rfl⟩
  | case4 => cases h
  | case5 s c rest more s' hstep m e hrest ih =>
    cases h
    exact ih (depth_pos_of_step hs hstep) hrest

/-- Whatever turns are taken, an element stays open. -/
theorem depth_pos_of_turnStates (hs : 1 ≤ s.depth) (limit : Nat) (h : Head) :
    ∀ x ∈ turnStates turn limit (s, h), 1 ≤ x.1.depth := by
  induction limit generalizing s h with
  | zero => nofun
  | succ limit ih =>
    obtain ⟨pos, text⟩ := h
    rw [turnStates]
    refine List.forall_mem_cons.mpr ⟨hs, ?_⟩
    cases text with
    | nil => nofun
    | cons c rest =>
      obtain ⟨t, hturn, hmatches⟩ := turn_matches s pos c rest
      rw [hturn]
      generalize hstep : s.step c rest = step at hmatches
      cases hmatches with
      | embed | finish | unclosed => nofun
      | proceed more s' => exact ih (depth_pos_of_step hs hstep) _

/-! The first tag of a literal. -/

theorem stretch_length (s : XmlState) (text : List Char) :
    stretch text.length s text = (text.length, .endOfInput) := by
  induction text with
  | nil => rfl
  | cons c rest ih => simp [stretch, ih]

/-- The bracket that opens a literal: it goes with a comment or the like, which is the whole literal
or never ends, or it opens the first element. -/
theorem step_start [Alphabet] (h : Lexeme.startsXml rest = true) :
    (∃ more, step {} '<' rest = .finish more) ∨ step {} '<' rest = .proceed rest.length {} ∨
      step {} '<' rest = .proceed 0 { depth := 1, inTag := true } := by
  have hslash : rest.head? ≠ some '/' := by
    intro hhead
    rw [Lexeme.startsXml, hhead] at h
    cases h
  change (∃ more, bracketStep {} rest = _) ∨ bracketStep {} rest = _ ∨ bracketStep {} rest = _
  unfold bracketStep
  split
  · split
    · exact .inl ⟨_, rfl⟩
    · exact .inr (.inl rfl)
  · rw [if_neg (by simpa using hslash)]
    exact .inr (.inr rfl)

theorem embeds_of_stretch_start [Alphabet] (h : Lexeme.startsXml rest = true)
    (hstretch : stretch 0 {} ('<' :: rest) = (n, .embedded s')) :
    s'.Embeds (('<' :: rest).drop n) := by
  rw [stretch] at hstretch
  obtain ⟨more, hstep⟩ | hstep | hstep := step_start h
  · rw [hstep] at hstretch
    cases hstretch
  · rw [hstep] at hstretch
    simp only [stretch_length] at hstretch
    cases hstretch
  · rw [hstep] at hstretch
    dsimp only at hstretch
    cases hrest : stretch 0 { depth := 1, inTag := true } rest with
    | mk m e =>
      rw [hrest] at hstretch
      obtain ⟨rfl, rfl⟩ : m + 1 = n ∧ e = .embedded s' := by simpa using hstretch
      rw [List.drop_succ_cons]
      exact embeds_of_stretch (Nat.le_refl 1) hrest

theorem rest_of_turnStates {limit : Nat} {h : Head} (hend : h.rest = []) :
    ∀ x ∈ turnStates turn limit (s, h), x.2.rest = [] := by
  obtain ⟨pos, text⟩ := h
  subst hend
  cases limit with
  | zero => nofun
  | succ limit => exact List.forall_mem_cons.mpr ⟨rfl, nofun⟩

/-- No element is closed before one is open. -/
theorem depth_pos_of_turnStates_start [Alphabet] (h : Lexeme.startsXml rest = true)
    (limit pos : Nat) :
    ∀ x ∈ turnStates turn limit ({}, ⟨pos, '<' :: rest⟩), ∀ c tail, x.2.rest = c :: tail →
      x.1.closesElement c tail = true → 1 ≤ x.1.depth := by
  cases limit with
  | zero => nofun
  | succ limit =>
    rw [turnStates]
    refine List.forall_mem_cons.mpr ⟨nofun, ?_⟩
    obtain ⟨t, hturn, hmatches⟩ := turn_matches {} pos '<' rest
    rw [hturn]
    generalize hstep : step {} '<' rest = first at hmatches
    cases hmatches with
    | embed | finish | unclosed => nofun
    | proceed more s' =>
      obtain ⟨more, hstart⟩ | hstart | hstart := step_start h
      · cases hstep.symm.trans hstart
      · -- The section that has no end takes all of the text.
        cases hstep.symm.trans hstart
        have hend : (Head.past ⟨pos, '<' :: rest⟩ (rest.length + 1)).rest = [] := by simp
        intro x hx c tail htail
        cases (rest_of_turnStates hend x hx).symm.trans htail
      · cases hstep.symm.trans hstart
        intro x hx c tail _ _
        exact depth_pos_of_turnStates (Nat.le_refl 1) limit _ x hx

end XmlState

namespace Mode

/-- Modes in order, innermost first. Literals and embedded expressions alternate, the outermost mode
being a literal, and the index tells whether the innermost one is. -/
inductive Stacked : Bool → List Mode → Prop where
  | none : Stacked false []
  | xml : s.quote = none → 1 ≤ s.depth → Stacked false outer → Stacked true (.xml s :: outer)
  | embedded : 1 ≤ braces → Stacked true outer → Stacked false (.embedded braces :: outer)

/-- Modes before a text: in order, or with an expression on top that begins with the next brace. -/
inductive Settled : List Mode → List Char → Prop where
  | stacked : Stacked inXml modes → Settled modes rest
  | opening : Stacked true outer → rest.head? = some '{' → Settled (.embedded 0 :: outer) rest

/-- What a lexeme of kind `k` may do to the modes, with `rest` after it. -/
inductive Change (rest : List Char) : List Mode → Kind → List Mode → Prop where
  | keep : Stacked false modes → (k ≠ .openBrace ∧ k ≠ .closeBrace ∨ modes = []) →
      Change rest modes k modes
  | enter : Stacked true outer → Change rest outer .openBrace (.embedded 1 :: outer)
  | deeper : Stacked true outer →
      Change rest (.embedded b :: outer) .openBrace (.embedded (b + 1) :: outer)
  | shallower : Stacked true outer →
      Change rest (.embedded (b + 2) :: outer) .closeBrace (.embedded (b + 1) :: outer)
  | leave : Stacked true outer → Change rest (.embedded 1 :: outer) .closeBrace outer
  | embed : Stacked false outer → modes = outer ∨ (∃ s', modes = .xml s' :: outer) →
      s.Embeds rest → Change rest modes .xmlFragment (.embedded 0 :: .xml s :: outer)
  | close : Stacked false outer → Change rest (.xml s :: outer) .xmlFragmentEnd outer

variable {modes modes' outer : List Mode} {rest : List Char} {k : Kind}

/-- After a lexeme the modes are settled again. -/
theorem Change.settled (h : Change rest modes k modes') : Settled modes' rest := by
  cases h with
  | keep hmodes => exact .stacked hmodes
  | enter houter => exact .stacked (.embedded (Nat.le_refl 1) houter)
  | deeper houter => exact .stacked (.embedded (Nat.le_add_left 1 _) houter)
  | shallower houter => exact .stacked (.embedded (Nat.le_add_left 1 _) houter)
  | leave houter => exact .stacked houter
  | embed houter _ hs => exact .opening (.xml hs.quote_eq hs.depth_pos houter) hs.brace_next
  | close houter => exact .stacked houter

end Mode

namespace Lexeme
open Mode
variable [Alphabet] {xmlLiterals afterOperand : Bool} {modes outer : List Mode} {state : XmlState}
  {c : Char} {rest : List Char}

/-- Only a brace makes the token of a brace. -/
theorem plain_kind_ne (hopen : c ≠ '{') (hclose : c ≠ '}') :
    (plain afterOperand c rest).kind ≠ .openBrace ∧
      (plain afterOperand c rest).kind ≠ .closeBrace := by
  have hread := (plain_reads afterOperand c rest).readable
  have hfirst {d : Char} {n : Nat} (htake : (c :: rest).take n = [d]) : c = d := by
    cases n with
    | zero => cases htake
    | succ n => exact (List.cons.inj htake).1
  constructor
  · intro hkind
    exact hopen (hfirst (hread.take_size "\x7b" (by rw [hkind]; rfl)))
  · intro hkind
    exact hclose (hfirst (hread.take_size "\x7d" (by rw [hkind]; rfl)))

omit [Alphabet] in
theorem xmlText_change (houter : Stacked false outer)
    (hmodes : modes = outer ∨ ∃ s, modes = .xml s :: outer)
    (hembeds : ∀ n s, state.stretch 0 (c :: rest) = (n, .embedded s) →
      s.Embeds ((c :: rest).drop n)) :
    Change ((c :: rest).drop (xmlText state outer c rest).1.size) modes
      (xmlText state outer c rest).1.kind (xmlText state outer c rest).2 := by
  have hend {tail : List Char} : Change tail modes .xmlFragmentEnd outer := by
    obtain rfl | ⟨s, rfl⟩ := hmodes
    · exact .keep houter (.inl ⟨nofun, nofun⟩)
    · exact .close houter
  unfold xmlText
  split
  · exact hend
  · rename_i n s hstretch
    exact .embed houter hmodes (hembeds n s hstretch)
  · exact hend

theorem ordinary_change (h : Settled modes (c :: rest)) (hxml : ¬Stacked true modes) :
    Change ((c :: rest).drop (ordinary xmlLiterals afterOperand modes c rest).1.size) modes
      (ordinary xmlLiterals afterOperand modes c rest).1.kind
      (ordinary xmlLiterals afterOperand modes c rest).2 := by
  unfold ordinary
  split
  · rename_i hc
    obtain rfl : c = '{' := beq_iff_eq.mp hc
    have hkind : (mark '{' rest).kind = .openBrace := rfl
    rw [hkind]
    cases h with
    | opening houter => exact .deeper houter
    | stacked hmodes =>
      cases hmodes with
      | none => exact .keep .none (.inr rfl)
      | xml hquote hdepth houter => exact absurd (.xml hquote hdepth houter) hxml
      | embedded _ houter => exact .deeper houter
  rename_i hopen
  rw [beq_iff_eq] at hopen
  have hmodes : Stacked false modes := by
    cases h with
    | opening _ hnext => exact absurd (Option.some.inj hnext) hopen
    | @stacked inXml _ _ hmodes =>
      cases inXml with
      | true => exact absurd hmodes hxml
      | false => exact hmodes
  split
  · rename_i hc
    obtain rfl : c = '}' := beq_iff_eq.mp hc
    have hkind : (mark '}' rest).kind = .closeBrace := rfl
    rw [hkind]
    cases hmodes with
    | none => exact .keep .none (.inr rfl)
    | @embedded b _ hb houter =>
      obtain _ | _ | b := b
      · cases hb
      · exact .leave houter
      · exact .shallower houter
  rename_i hclose
  rw [beq_iff_eq] at hclose
  split
  · rename_i hc
    simp only [Bool.and_eq_true, beq_iff_eq] at hc
    obtain ⟨⟨⟨rfl, -⟩, -⟩, hstarts⟩ := hc
    exact xmlText_change hmodes (.inl rfl)
      fun n s hstretch => XmlState.embeds_of_stretch_start hstarts hstretch
  · exact .keep hmodes (.inl (plain_kind_ne hopen hclose))

/-- Every lexeme that is read in settled modes changes them in one of the ways of `Mode.Change`. -/
theorem next_change (xmlLiterals afterOperand : Bool) (h : Settled modes (c :: rest)) :
    Change ((c :: rest).drop (next xmlLiterals afterOperand modes c rest).1.size) modes
      (next xmlLiterals afterOperand modes c rest).1.kind
      (next xmlLiterals afterOperand modes c rest).2 := by
  unfold next
  split
  · rename_i state outer
    obtain ⟨hquote, hdepth, houter⟩ : state.quote = none ∧ 1 ≤ state.depth ∧
        Stacked false outer := by
      cases h with
      | stacked hmodes =>
        cases hmodes with
        | xml hquote hdepth houter => exact ⟨hquote, hdepth, houter⟩
    split
    · rename_i hc
      rw [Bool.and_eq_true, beq_iff_eq] at hc
      obtain rfl := hc.1
      exact .enter (.xml hquote hdepth houter)
    · exact xmlText_change houter (.inr ⟨state, rfl⟩)
        fun n s hstretch => XmlState.embeds_of_stretch hdepth hstretch
  · rename_i hxml
    refine ordinary_change h ?_
    intro hmodes
    cases hmodes with
    | xml => exact hxml _ _ rfl

end Lexeme

namespace Head
open Mode
variable [Alphabet] {xmlLiterals afterOperand : Bool} {modes : List Mode} {state : XmlState}
  {h : Head} {x : Scanned} {r : Reading}

/-- Every token that is read in settled modes changes them in one of the ways of `Mode.Change`. -/
theorem scan_change (hmodes : Settled modes h.rest)
    (hscan : h.scan xmlLiterals afterOperand modes = some x) (htoken : x.token = some r) :
    Change x.stop.rest modes r.kind x.modes := by
  obtain ⟨pos, text⟩ := h
  cases text with
  | nil =>
    rw [scan_end] at hscan
    split at hscan
    · cases hscan
      cases htoken
    · cases hscan
      cases htoken
  | cons c rest =>
    rw [scan_eq] at hscan
    cases hscan
    cases htoken
    exact Lexeme.next_change xmlLiterals afterOperand hmodes

/-- The state from which a call of the scanner reads XML text, if it does. -/
def markup? (xmlLiterals afterOperand : Bool) (modes : List Mode) (h : Head) : Option XmlState :=
  match modes with
  | .xml state :: _ => some state
  | _ =>
    if h.char? == some '<' && xmlLiterals && !afterOperand && h.startsXml then some {} else none

/-- Where `markup?` tells a state, the call begins with the XML text that is read from it. -/
theorem scan_of_markup? (hmarkup : h.markup? xmlLiterals afterOperand modes = some state) :
    ∃ outer next, h.scan xmlLiterals afterOperand modes = (h.scanXml state outer).bind next := by
  unfold markup? at hmarkup
  split at hmarkup
  · cases hmarkup
    exact ⟨_, _, rfl⟩
  · rename_i hmodes
    split at hmarkup
    · rename_i hc
      cases hmarkup
      simp only [Bool.and_eq_true, beq_iff_eq] at hc
      obtain ⟨⟨⟨hchar, hliterals⟩, hoperand⟩, hstarts⟩ := hc
      have hcall : h.scan xmlLiterals afterOperand modes =
          h.lessThan xmlLiterals afterOperand modes := by
        unfold scan
        split
        · exact absurd rfl (hmodes _ _)
        · simp [scanToken, hchar]
      rw [hcall, lessThan, hliterals, hoperand, hstarts]
      exact ⟨modes, _, rfl⟩
    · cases hmarkup

/-- In settled modes no element is closed that was not opened. -/
theorem depth_pos_of_markup? (hmodes : Settled modes h.rest)
    (hmarkup : h.markup? xmlLiterals afterOperand modes = some state) (limit : Nat) :
    ∀ x ∈ turnStates XmlState.turn limit (state, h), ∀ c tail, x.2.rest = c :: tail →
      x.1.closesElement c tail = true → 1 ≤ x.1.depth := by
  unfold markup? at hmarkup
  split at hmarkup
  · cases hmarkup
    intro x hx c tail _ _
    cases hmodes with
    | stacked hmodes =>
      cases hmodes with
      | xml _ hdepth _ => exact XmlState.depth_pos_of_turnStates hdepth limit h x hx
  · split at hmarkup
    · rename_i hc
      cases hmarkup
      simp only [Bool.and_eq_true, beq_iff_eq] at hc
      obtain ⟨⟨⟨hchar, -⟩, -⟩, hstarts⟩ := hc
      obtain ⟨pos, text⟩ := h
      obtain ⟨rest, rfl⟩ := List.head?_eq_some_iff.mp hchar
      have hstarts : Lexeme.startsXml rest = true := by
        rwa [startsXml, charAt?_one] at hstarts
      exact XmlState.depth_pos_of_turnStates_start hstarts limit pos
    · cases hmarkup

end Head
end ScriptTree
