import Mathlib.Data.List.Forall2
import ScriptTree.Proofs.ModeStack
import ScriptTree.Proofs.TokenLexemes

/-!
What a scan reports. Every token that is invalid or lacks its closing delimiter is reported once, in
the order of the tokens and at its own place, and nothing else is, except at the end of the text.
There an XML literal is reported that the tokens have left open.
-/
namespace ScriptTree

/-- The code under which a token of a kind is reported. -/
def Kind.faultCode? : Kind → Option Nat
  | .unknown => some 1001
  | .stringLiteral => some 1002
  | .multiLineComment => some 1003
  | .regularExpressionLiteral => some 1004
  | .xmlFragmentEnd => some 1005
  | _ => none

theorem Kind.code_of_fault? {k : Kind} {fault : LexicalFault} (h : k.fault? = some fault) :
    k.faultCode? = some fault.message.code := by
  cases k <;> first | (cases h; rfl) | cases h

namespace Token

/-- Whether something is wrong with a token. -/
def isFaulty (t : Token) : Bool := t.kind == .unknown || t.unterminated

def fault? (t : Token) : Option LexicalFault := if t.isFaulty then t.kind.fault? else none

/-- What is reported of a token at position `pos`. -/
def problem? (t : Token) (pos : Nat) : Option Diagnostic :=
  t.fault?.map fun fault => .located ⟨pos, t.length⟩ (t.line - 1) fault.message []

/-- Diagnostic `d` tells what is wrong with token `t` at position `pos`, and spans the token. -/
structure ReportedBy (t : Token) (pos : Nat) (d : Diagnostic) : Prop where
  code_eq : t.kind.faultCode? = some d.code
  located : ∃ fault, t.kind.fault? = some fault ∧
    d = .located ⟨pos, t.length⟩ (t.line - 1) fault.message []

theorem reportedBy_of_problem? {t : Token} {pos : Nat} {d : Diagnostic}
    (h : t.problem? pos = some d) : t.ReportedBy pos d := by
  obtain ⟨fault, hfault, rfl⟩ := Option.map_eq_some_iff.mp h
  have hkind : t.kind.fault? = some fault := by
    unfold fault? at hfault
    split at hfault
    · exact hfault
    · cases hfault
  exact ⟨Kind.code_of_fault? hkind, fault, hkind, rfl⟩

/-- Wherever something is wrong with a token, its kind tells what. -/
theorem MadeOf.isSome_fault? {t : Token} {l : Lexeme} {text : List Char} (h : t.MadeOf l text)
    (hblamed : l.IsBlamed) : t.fault?.isSome = t.isFaulty := by
  cases hfaulty : t.isFaulty with
  | false => simp [fault?, hfaulty]
  | true =>
    simp only [fault?, hfaulty, if_true]
    rw [h.kind_eq]
    simp only [isFaulty, Bool.or_eq_true, beq_iff_eq] at hfaulty
    rcases hfaulty with hunknown | hopen
    · rw [← h.kind_eq, hunknown]
      rfl
    · exact Lexeme.isSome_fault?_of_isUnterminated hblamed (h.unterminated_eq ▸ hopen)

end Token

/-- What is reported of tokens, each at the place where the tokens before it end. -/
def problems (tokens : List Token) : List Diagnostic :=
  tokens.zipIdx.filterMap fun (t, i) => t.problem? (totalLength (tokens.take i))

theorem problems_append_singleton (tokens : List Token) (t : Token) :
    problems (tokens ++ [t]) = problems tokens ++ (t.problem? (totalLength tokens)).toList := by
  have hbefore : tokens.zipIdx.filterMap
      (fun (u, i) => u.problem? (totalLength ((tokens ++ [t]).take i))) = problems tokens := by
    apply List.filterMap_congr
    intro (u, i) hmem
    have hi : i < tokens.length := (List.mem_zipIdx' hmem).1
    show u.problem? (totalLength ((tokens ++ [t]).take i)) =
      u.problem? (totalLength (tokens.take i))
    rw [List.take_append_of_le_length (Nat.le_of_lt hi)]
  unfold problems at hbefore ⊢
  rw [List.zipIdx_append, List.filterMap_append, hbefore]
  cases hproblem : t.problem? (totalLength tokens) <;> simp [hproblem]

/-- A function that has a value exactly where `p` holds pairs those places with its values. -/
theorem forall₂_filter_filterMap {α β : Type} {f : α → Option β} {p : α → Bool} {l : List α}
    (h : ∀ x ∈ l, (f x).isSome = p x) :
    List.Forall₂ (fun x y => f x = some y) (l.filter p) (l.filterMap f) := by
  induction l with
  | nil => exact .nil
  | cons x l ih =>
    obtain ⟨hx, hl⟩ := List.forall_mem_cons.mp h
    cases hf : f x with
    | none => simpa [← hx, hf] using ih hl
    | some y => simpa [← hx, hf] using ih hl

namespace Scan

/-- What is true of a scan that has reported the tokens it has read, and nothing else. -/
structure Reported [Alphabet] (xmlLiterals : Bool) (text : String) (skip : Nat) (rest : List Char)
    (s : Scan) : Prop extends s.Lexed xmlLiterals text skip rest where
  diagnostics_eq : s.diagnostics.toList = problems s.tokens.toList

variable {xmlLiterals : Bool} {text : String} {skip : Nat} {c : Char} {rest : List Char} {s : Scan}

theorem Stands.offset_eq (h : s.Stands text 0 rest) :
    s.place.offset = totalLength s.tokens.toList := by
  obtain ⟨before, -, hoffset, htexts⟩ := h.position
  rw [hoffset, totalLength_eq]
  simp only [texts, List.take_zero, List.append_nil] at htexts
  rw [htexts]

/-- A token is reported when it is added. -/
theorem push_diagnostics (s : Scan) {l : Lexeme} (text : List Char) (h : l.IsBlamed) :
    (s.push l text).diagnostics.toList = s.diagnostics.toList ++
      ((s.tokenOf l text).problem? s.place.offset).toList := by
  have hfault : (s.tokenOf l text).fault? = l.fault := by
    rw [h, Token.fault?, Token.isFaulty, tokenOf]
    simp
  rw [Token.problem?, hfault]
  unfold push
  dsimp only
  split
  · rename_i fault hl
    simp [report, hl, tokenOf]
  · rename_i hl
    simp [hl]

theorem Reported.take [Alphabet] (h : s.Reported xmlLiterals text 0 (c :: rest)) :
    (Scan.take xmlLiterals s c rest).1.Reported xmlLiterals text
      ((Scan.take xmlLiterals s c rest).2 + 1) (c :: rest) where
  toLexed := h.toLexed.take
  diagnostics_eq := by
    rw [s.take_tokens, Array.toList_push, problems_append_singleton, ← h.diagnostics_eq,
      ← h.toStands.offset_eq]
    exact s.push_diagnostics _ (Lexeme.next_isBlamed xmlLiterals s.afterOperand s.modes c rest)

theorem Reported.pass [Alphabet] (h : s.Reported xmlLiterals text (skip + 1) (c :: rest)) :
    (s.pass c rest.head?).Reported xmlLiterals text skip rest where
  toLexed := h.toLexed.pass
  diagnostics_eq := h.diagnostics_eq

/-- The diagnostic at the end of the text. -/
def atEnd (s : Scan) : Diagnostic :=
  .located ⟨s.place.offset, 0⟩ (s.place.line - 1) .unterminatedXml []

/-- An XML literal that is open at the end is reported there, twice if another is open around it. -/
theorem closeText_finish_diagnostics (s : Scan) : ∃ n ≤ 2, s.closeText.finish.diagnostics.toList =
    s.diagnostics.toList ++ List.replicate n s.atEnd ∧ (0 < n ↔ s.modes.any Mode.isXml = true) := by
  unfold closeText
  split
  · rename_i hmodes
    unfold finish
    dsimp only
    split
    · exact ⟨2, by simp [report, atEnd, hmodes, Mode.isXml]⟩
    · exact ⟨1, by simp [report, atEnd, hmodes, Mode.isXml]⟩
  · unfold finish
    split
    · rename_i hxml
      exact ⟨1, by simp [report, atEnd, hxml]⟩
    · rename_i hxml
      exact ⟨0, by simp [hxml]⟩

end Scan

/-! Open literals. -/

/-- How a token of a kind changes the open XML literals. For each of them, the innermost first,
there is the number of open braces of the expression that is embedded in it, zero inside its own
text. A literal is opened by its first fragment and closed by its last one, whether or not that is
complete. -/
def Kind.nest : Kind → List Nat → List Nat
  | .xmlFragment, 0 :: outer => 0 :: outer
  | .xmlFragment, inside => 0 :: inside
  | .xmlFragmentEnd, 0 :: outer => outer
  | .openBrace, braces :: outer => (braces + 1) :: outer
  | .closeBrace, braces :: outer => (braces - 1) :: outer
  | _, inside => inside

/-- The XML literals that are open after tokens of the given kinds. -/
def openLiterals (kinds : List Kind) : List Nat := kinds.foldl (fun inside k => k.nest inside) []

theorem Kind.nest_nil {k : Kind} (h : k ≠ .xmlFragment) : k.nest [] = [] := by
  cases k <;> first | rfl | exact absurd rfl h

theorem Kind.nest_succ {k : Kind} {braces : Nat} {outer : List Nat} (hfragment : k ≠ .xmlFragment)
    (hopen : k ≠ .openBrace) (hclose : k ≠ .closeBrace) :
    k.nest ((braces + 1) :: outer) = (braces + 1) :: outer := by
  cases k <;> first | rfl | contradiction

namespace Mode

/-- The literals among the modes, each with the open braces of the expression embedded in it. -/
def literals : List Mode → List Nat
  | [] => []
  | .xml _ :: outer => 0 :: literals outer
  | .embedded braces :: outer => braces :: (literals outer).tail

variable {modes modes' outer : List Mode} {rest : List Char} {k : Kind} {inXml : Bool}

theorem Stacked.literals_ne_nil (h : Stacked inXml modes) :
    literals modes ≠ [] ↔ modes.any isXml = true := by
  cases h with
  | none => simp [literals]
  | xml => simp [literals, isXml]
  | embedded _ houter =>
    cases houter
    simp [literals, isXml]

theorem Settled.literals_ne_nil (h : Settled modes []) :
    literals modes ≠ [] ↔ modes.any isXml = true := by
  cases h with
  | stacked hmodes => exact hmodes.literals_ne_nil
  | opening _ hnext => cases hnext

/-- Inside an expression, or outside all literals, only fragments and braces count. -/
theorem Stacked.nest_literals (h : Stacked false modes) (hfragment : k ≠ .xmlFragment)
    (hk : k ≠ .openBrace ∧ k ≠ .closeBrace ∨ modes = []) :
    k.nest (literals modes) = literals modes := by
  cases h with
  | none => exact Kind.nest_nil hfragment
  | @embedded braces outer hbraces houter =>
    obtain ⟨hopen, hclose⟩ : k ≠ .openBrace ∧ k ≠ .closeBrace := by simpa using hk
    cases braces with
    | zero => cases hbraces
    | succ braces => exact Kind.nest_succ hfragment hopen hclose

theorem Stacked.nest_fragment (h : Stacked false modes) :
    Kind.nest .xmlFragment (literals modes) = 0 :: literals modes := by
  cases h with
  | none => rfl
  | @embedded braces outer hbraces houter =>
    cases braces with
    | zero => cases hbraces
    | succ braces => rfl

/-- The tokens tell which literals are open, provided that after a fragment one is. -/
theorem Change.literals (h : Change rest modes k modes')
    (hfragment : k = .xmlFragment → modes'.head? = some (.embedded 0)) :
    k.nest (literals modes) = Mode.literals modes' := by
  cases h with
  | keep hmodes hk =>
    have hne : k ≠ .xmlFragment := by
      intro hk
      have hhead := hfragment hk
      cases hmodes with
      | none => cases hhead
      | embedded hbraces =>
        cases hhead
        cases hbraces
    exact hmodes.nest_literals hne hk
  | enter houter | deeper houter | shallower houter | leave houter =>
    cases houter
    rfl
  | embed houter hmodes =>
    obtain rfl | ⟨s', rfl⟩ := hmodes
    · exact houter.nest_fragment
    · rfl
  | close => rfl

end Mode

/-- Only XML text has fragments that do not end their literal. -/
theorem Lexeme.Reads.kind_ne_xmlFragment [Alphabet] {c : Char} {rest : List Char} {l : Lexeme}
    (h : Reads c rest l) : l.kind ≠ .xmlFragment := by
  rcases h.sound_or_delimited with hsound | rfl | ⟨-, rfl⟩ | ⟨-, hcomment | ⟨-, rfl⟩⟩
  · intro hkind
    have hfaultless := hsound.2
    simp [hkind, Kind.isFaultless] at hfaultless
  · simp [invalid]
  · simp [Lexeme.string, delimited]
  · rcases comment?_kind hcomment with hkind | hkind <;> simp [hkind]
  · simp [Lexeme.regExp, delimited]

/-- After such a fragment an embedded expression begins. -/
theorem Lexeme.head?_of_xmlFragment [Alphabet] {xmlLiterals afterOperand : Bool}
    {modes : List Mode} {c : Char} {rest : List Char}
    (h : (next xmlLiterals afterOperand modes c rest).1.kind = .xmlFragment) :
    (next xmlLiterals afterOperand modes c rest).2.head? = some (.embedded 0) := by
  rcases next_cases xmlLiterals afterOperand modes c rest with hreads | ⟨state, outer, -, htext⟩
  · exact absurd h hreads.kind_ne_xmlFragment
  · rw [htext] at h ⊢
    cases hstretch : state.stretch 0 (c :: rest) with
    | mk n e =>
      simp only [xmlText, hstretch] at h ⊢
      cases e with
      | embedded => rfl
      | closed | endOfInput => cases h

namespace Scan
variable [Alphabet] {xmlLiterals : Bool} {skip : Nat} {c : Char} {rest : List Char} {s : Scan}

/-- What is true of a scan that has as many literals open as its tokens tell. -/
structure Nested (skip : Nat) (rest : List Char) (s : Scan) : Prop where
  settled : Mode.Settled s.modes (rest.drop skip)
  literals_eq : openLiterals (s.tokens.toList.map (·.kind)) = Mode.literals s.modes

theorem Nested.take (h : s.Nested 0 (c :: rest)) :
    (Scan.take xmlLiterals s c rest).1.Nested ((Scan.take xmlLiterals s c rest).2 + 1)
      (c :: rest) := by
  have hchange := Lexeme.next_change xmlLiterals s.afterOperand h.settled
  constructor
  · rw [← Lexeme.next_more_add_one] at hchange
    exact hchange.settled
  · rw [s.take_tokens, Array.toList_push, List.map_append, openLiterals, List.foldl_append]
    exact (congrArg (Kind.nest _) h.literals_eq).trans
      (hchange.literals Lexeme.head?_of_xmlFragment)

omit [Alphabet] in
theorem Nested.pass (h : s.Nested (skip + 1) (c :: rest)) :
    (s.pass c rest.head?).Nested skip rest := ⟨h.settled, h.literals_eq⟩

end Scan

/-- The tokens of a text leave a literal open exactly if the scan ends in one. -/
theorem Scan.openLiterals_ne_nil [Alphabet] {text : String} {xmlLiterals : Bool} {s : Scan}
    (hs : cut (Scan.take xmlLiterals) Scan.pass 0 text.toList {} = s) :
    openLiterals (s.tokens.toList.map (·.kind)) ≠ [] ↔ s.modes.any Mode.isXml = true := by
  obtain ⟨left, hend⟩ := cut_preserves_skip (P := Scan.Nested) (fun _ _ _ h => h.take)
    (fun _ _ _ _ h => h.pass) 0 text.toList {} ⟨.stacked .none, rfl⟩
  rw [hs] at hend
  rw [hend.literals_eq]
  have hsettled := hend.settled
  rw [List.drop_nil] at hsettled
  exact hsettled.literals_ne_nil

theorem Scan.atEnd_eq [Alphabet] {text : String} {xmlLiterals : Bool} {left : Nat} {s : Scan}
    (h : s.Reported xmlLiterals text left []) : s.atEnd = .located ⟨text.utf8ByteSize, 0⟩
      ((LineMap.ofText text).lineOf text.utf8ByteSize) .unterminatedXml [] := by
  obtain ⟨before, happend, hoffset, -⟩ := h.position
  rw [List.append_nil] at happend
  rw [happend, String.ofList_toList] at hoffset
  rw [Scan.atEnd, ← h.divides.lineOf_offset, hoffset]

/-- The tokens with which something is wrong are reported one by one. -/
theorem problems_report [Alphabet] (text : String) (xmlLiterals : Bool) :
    let tokens := (tokenize text xmlLiterals).tokens
    List.Forall₂ (fun (t, i) d => t.ReportedBy ((Offsets.ofTokens tokens).get i) d)
      (tokens.toList.zipIdx.filter fun (t, _) => t.isFaulty) (problems tokens.toList) := by
  intro tokens
  have hfaulty : ∀ x ∈ tokens.toList.zipIdx,
      (x.1.problem? (totalLength (tokens.toList.take x.2))).isSome = x.1.isFaulty := by
    intro (t, i) hmem
    have ht : tokens[i]? = some t := by simpa using List.mem_zipIdx_iff_getElem?.mp hmem
    obtain ⟨afterOperand, modes, c, rest, -, hmade⟩ := tokenize_madeOf ht
    rw [Token.problem?, Option.isSome_map]
    exact hmade.isSome_fault? (Lexeme.next_isBlamed xmlLiterals afterOperand modes c rest)
  apply (forall₂_filter_filterMap hfaulty).imp
  intro (t, i) d hd
  show t.ReportedBy ((Offsets.ofTokens tokens).get i) d
  rw [Offsets.get_ofTokens]
  exact Token.reportedBy_of_problem? hd

/-- The report that an XML literal is open where the text ends. -/
def unclosedAtEnd (text : String) : Diagnostic :=
  .located ⟨text.utf8ByteSize, 0⟩ ((LineMap.ofText text).lineOf text.utf8ByteSize)
    .unterminatedXml []

/-- After what is wrong with the tokens it is reported, at most twice, that a literal is open. -/
theorem tokenize_diagnostics [Alphabet] (text : String) (xmlLiterals : Bool) :
    let r := tokenize text xmlLiterals
    ∃ n ≤ 2, r.diagnostics.toList =
        problems r.tokens.toList ++ List.replicate n (unclosedAtEnd text) ∧
      (0 < n ↔ openLiterals (r.tokens.toList.map (·.kind)) ≠ []) := by
  intro r
  have hstart : Scan.Reported xmlLiterals text 0 text.toList {} :=
    ⟨⟨stands_start text, by simp⟩, rfl⟩
  obtain ⟨left, hend⟩ := cut_preserves_skip (P := Scan.Reported xmlLiterals text)
    (fun _ _ _ h => h.take) (fun _ _ _ _ h => h.pass) 0 text.toList {} hstart
  have htokens : r.tokens = (cut (Scan.take xmlLiterals) Scan.pass 0 text.toList {}).tokens :=
    tokenize_tokens text xmlLiterals
  have hdiagnostics : r.diagnostics =
      (cut (Scan.take xmlLiterals) Scan.pass 0 text.toList {}).closeText.finish.diagnostics := by
    rw [show r = _ from tokenize_eq text xmlLiterals]
  generalize hs : cut (Scan.take xmlLiterals) Scan.pass 0 text.toList {} = s
    at hend htokens hdiagnostics
  obtain ⟨n, hn, hfinish, hmodes⟩ := s.closeText_finish_diagnostics
  rw [Scan.atEnd_eq hend, hend.diagnostics_eq, ← hdiagnostics, ← htokens] at hfinish
  refine ⟨n, hn, hfinish, ?_⟩
  rw [htokens, hmodes, Scan.openLiterals_ne_nil hs]

/-- The diagnostics of a scan are those of the tokens with which something is wrong, one each and in
order, and after them those of the end of the text, where at most two tell that an XML literal is
open. One does exactly if the tokens leave a literal open. -/
theorem tokenize_reports [Alphabet] (text : String) (xmlLiterals : Bool) :
    let r := tokenize text xmlLiterals
    let stop : Diagnostic := .located ⟨text.utf8ByteSize, 0⟩
      ((LineMap.ofText text).lineOf text.utf8ByteSize) .unterminatedXml []
    ∃ perToken, ∃ n ≤ 2, r.diagnostics.toList = perToken ++ List.replicate n stop ∧
      List.Forall₂ (fun (t, i) d => t.ReportedBy ((Offsets.ofTokens r.tokens).get i) d)
        (r.tokens.toList.zipIdx.filter fun (t, _) => t.isFaulty) perToken ∧
      stop.code = 1005 ∧ (0 < n ↔ openLiterals (r.tokens.toList.map (·.kind)) ≠ []) := by
  intro r stop
  obtain ⟨n, hn, hdiagnostics, hopen⟩ := tokenize_diagnostics text xmlLiterals
  have hreport := problems_report text xmlLiterals
  exact ⟨problems r.tokens.toList, n, hn, hdiagnostics, hreport, rfl, hopen⟩

/-- Two literals are open, and the text ends right after an expression in the inner one. -/
example : (tokenize "<a>\x7b<b>\x7b\x7d" true).diagnostics.toList.map (·.code) = [1005, 1005] := by
  rfl

end ScriptTree
