import ScriptTree.Lexeme.Next
import ScriptTree.Proofs.ScannerCalls

/-!
The scan of a whole text. Calling the scanner until the input has ended is going through the text
lexeme by lexeme, so that what is shown of a cut holds of `tokenize?` and `pieces?`, which always
come to a result.
-/
namespace ScriptTree

theorem head?_take_or_drop (text : List Char) (n : Nat) :
    (text.take n).head?.or (text.drop n).head? = text.head? := by
  cases n with
  | zero => simp
  | succ n => cases text <;> simp

/-- A loop of calls goes with a cut: `close` tells what the end of the input does. -/
theorem Caller.turns_eq_cut [Alphabet] {σ : Type} {caller : Caller σ} {xmlLiterals : Bool}
    {emit : σ → Char → List Char → σ × Nat} {pass : σ → Char → Option Char → σ} {close : σ → σ}
    {P : σ → Nat → Prop}
    (hcall : ∀ s pos c rest, P s pos → ∃ s' n,
      caller.turn xmlLiterals (s, ⟨pos, c :: rest⟩) =
        some (.again (s', Head.past ⟨pos, c :: rest⟩ (n + 1))) ∧
      P s' (Head.past ⟨pos, c :: rest⟩ (n + 1)).pos ∧
      cut emit pass 0 (c :: rest) s = cut emit pass 0 (rest.drop n) s')
    (hend : ∀ s pos, caller.turn xmlLiterals (s, ⟨pos, []⟩) = some (.done (close s)))
    {limit : Nat} {s : σ} {h : Head} (hlimit : h.rest.length < limit) (hat : P s h.pos) :
    turns (caller.turn xmlLiterals) limit (s, h) = some (close (cut emit pass 0 h.rest s)) := by
  refine turns_eq (s := (s, h)) (P := fun s => P s.1 s.2.pos) (m := fun s => s.2.rest.length)
    (f := fun s => close (cut emit pass 0 s.2.rest s.1)) (fun s hat => ?_) hat hlimit
  obtain ⟨s, pos, text⟩ := s
  cases text with
  | nil => exact .done (hend s pos)
  | cons c rest =>
    obtain ⟨s', n, hturn, hat', hcut⟩ := hcall s pos c rest hat
    refine .again _ hturn hat' (Head.length_past_lt pos c rest n) ?_
    dsimp only
    rw [hcut]
    rfl

namespace Scan
variable [Alphabet]

/-- The characters of a lexeme are passed one after the other. -/
theorem cut_passText (xmlLiterals : Bool) (skip : Nat) (text : List Char) (s : Scan) :
    cut (take xmlLiterals) pass skip text s =
      cut (take xmlLiterals) pass 0 (text.drop skip)
        (s.passText (text.drop skip).head? (text.take skip)) := by
  induction text generalizing skip s with
  | nil => cases skip <;> rfl
  | cons c rest ih =>
    cases skip with
    | zero => rfl
    | succ skip =>
      rw [cut, ih, List.take_succ_cons, List.drop_succ_cons, passText, head?_take_or_drop]

/-- The state after the lexeme that begins with `c`, with all its characters passed. -/
def takeWhole (xmlLiterals : Bool) (s : Scan) (c : Char) (rest : List Char) : Scan :=
  let (s', more) := s.take xmlLiterals c rest
  s'.passText (rest.drop more).head? (c :: rest.take more)

theorem cut_takeWhole (xmlLiterals : Bool) (s : Scan) (c : Char) (rest : List Char) :
    cut (take xmlLiterals) pass 0 (c :: rest) s =
      cut (take xmlLiterals) pass 0 (rest.drop (s.take xmlLiterals c rest).2)
        (s.takeWhole xmlLiterals c rest) := by
  rw [cut]
  dsimp only
  rw [cut_passText, takeWhole]
  dsimp only
  rw [passText, head?_take_or_drop]

omit [Alphabet] in
theorem keep_scanned (s : Scan) (h : Head) (l : Lexeme × List Mode) :
    s.keep h (h.scanned l) =
      some ({ s.push l.1 (h.rest.take l.1.size) with modes := l.2 }.passText
        (h.past l.1.size).char? (h.rest.take l.1.size)) := by
  simp [keep, Head.scanned, Head.sliceTo?_past]

theorem turn_eq (xmlLiterals : Bool) (s : Scan) (pos : Nat) (c : Char) (rest : List Char) :
    caller.turn xmlLiterals (s, ⟨pos, c :: rest⟩) =
      some (.again (s.takeWhole xmlLiterals c rest,
        Head.past ⟨pos, c :: rest⟩ ((s.take xmlLiterals c rest).2 + 1))) := by
  have hmore := Lexeme.next_more_add_one xmlLiterals s.afterOperand s.modes c rest
  simp only [Caller.turn, caller, Head.scan_eq, Option.bind_eq_bind, Option.bind_some, keep_scanned,
    takeWhole, take]
  rw [hmore, Head.scanned, ← hmore]
  rfl

theorem turn_end (xmlLiterals : Bool) (s : Scan) (pos : Nat) :
    caller.turn xmlLiterals (s, ⟨pos, []⟩) = some (.done s.closeText) := by
  obtain ⟨place, modes, previous, lineBroken, tokens, diagnostics⟩ := s
  rcases modes with _ | ⟨state | braces, outer⟩
  · simp [Caller.turn, caller, Head.scan_end, keep, closeText]
  · simp [Caller.turn, caller, Head.scan_end, keep, closeText]
  · simp [Caller.turn, caller, Head.scan_end, keep, closeText]

/-- The calls of `tokenize?` give the lexemes of the text. -/
theorem run_eq (xmlLiterals : Bool) (text : String) (s : Scan) :
    caller.run xmlLiterals text s =
      some (cut (take xmlLiterals) pass 0 text.toList s).closeText := by
  apply Caller.turns_eq_cut (P := fun _ _ => True) _ (turn_end xmlLiterals)
    (Nat.lt_succ_self _) trivial
  intro s pos c rest _
  exact ⟨_, _, turn_eq xmlLiterals s pos c rest, trivial, cut_takeWhole xmlLiterals s c rest⟩

end Scan

namespace Pieces
variable [Alphabet]

theorem cut_pass (xmlLiterals : Bool) (skip : Nat) (text : List Char) (p : Pieces) :
    cut (take xmlLiterals) pass skip text p =
      cut (take xmlLiterals) pass 0 (text.drop skip)
        { p with offset := p.offset + byteLength (text.take skip) } := by
  induction text generalizing skip p with
  | nil => simp [cut]
  | cons c rest ih =>
    cases skip with
    | zero => rfl
    | succ skip =>
      rw [cut, ih, List.take_succ_cons, List.drop_succ_cons, byteLength_cons, pass, Nat.add_assoc]

/-- The state after the lexeme that begins with `c`, with all its characters passed. -/
def takeWhole (xmlLiterals : Bool) (p : Pieces) (c : Char) (rest : List Char) : Pieces :=
  let (p', more) := p.take xmlLiterals c rest
  { p' with offset := p'.offset + byteLength (c :: rest.take more) }

theorem cut_takeWhole (xmlLiterals : Bool) (p : Pieces) (c : Char) (rest : List Char) :
    cut (take xmlLiterals) pass 0 (c :: rest) p =
      cut (take xmlLiterals) pass 0 (rest.drop (p.take xmlLiterals c rest).2)
        (p.takeWhole xmlLiterals c rest) := by
  rw [cut]
  dsimp only
  rw [cut_pass, takeWhole]
  dsimp only
  rw [byteLength_cons, pass, Nat.add_assoc]

theorem turn_eq (xmlLiterals : Bool) {p : Pieces} {pos : Nat} (hpos : p.offset = pos) (c : Char)
    (rest : List Char) :
    caller.turn xmlLiterals (p, ⟨pos, c :: rest⟩) =
      some (.again (p.takeWhole xmlLiterals c rest,
        Head.past ⟨pos, c :: rest⟩ ((p.take xmlLiterals c rest).2 + 1))) := by
  subst hpos
  have hmore := Lexeme.next_more_add_one xmlLiterals false p.modes c rest
  simp only [Caller.turn, caller, Head.scan_eq, Option.bind_eq_bind, Option.bind_some, keep,
    Head.scanned, takeWhole, take]
  rw [← hmore]
  rfl

theorem turn_end (xmlLiterals : Bool) (p : Pieces) (pos : Nat) :
    caller.turn xmlLiterals (p, ⟨pos, []⟩) = some (.done p.closeText) := by
  obtain ⟨offset, modes, pieces, diagnostics⟩ := p
  rcases modes with _ | ⟨state | braces, outer⟩
  · simp [Caller.turn, caller, Head.scan_end, keep, closeText]
  · simp [Caller.turn, caller, Head.scan_end, keep, closeText]
  · simp [Caller.turn, caller, Head.scan_end, keep, closeText]

/-- The calls of `pieces?` give the lexemes that do not regard the tokens before them. -/
theorem run_eq (xmlLiterals : Bool) (text : String) :
    caller.run xmlLiterals text {} =
      some (cut (take xmlLiterals) pass 0 text.toList {}).closeText := by
  apply Caller.turns_eq_cut (P := fun p pos => p.offset = pos) _ (turn_end xmlLiterals)
    (Nat.lt_succ_self _) rfl
  intro p pos c rest hpos
  refine ⟨_, _, turn_eq xmlLiterals hpos c rest, ?_, cut_takeWhole xmlLiterals p c rest⟩
  subst hpos
  rfl

end Pieces

section
variable [Alphabet]

theorem tokenize?_eq (text : String) (xmlLiterals : Bool) :
    tokenize? text xmlLiterals = some (tokenize text xmlLiterals) := by
  simp [tokenize, tokenize?, Scan.run_eq]

theorem pieces?_eq (text : String) (xmlLiterals : Bool) :
    pieces? text xmlLiterals = some (pieces text xmlLiterals) := by
  simp [pieces, pieces?, Pieces.run_eq]

/-- Where a text has been cut into lexemes, and the end of the input has been met. -/
theorem tokenize_eq (text : String) (xmlLiterals : Bool) :
    tokenize text xmlLiterals =
      let s := (cut (Scan.take xmlLiterals) Scan.pass 0 text.toList {}).closeText.finish
      ⟨s.tokens, s.diagnostics⟩ := by
  simp [tokenize, tokenize?, Scan.run_eq]

theorem pieces_eq (text : String) (xmlLiterals : Bool) :
    pieces text xmlLiterals =
      (cut (Pieces.take xmlLiterals) Pieces.pass 0 text.toList {}).closeText := by
  simp [pieces, pieces?, Pieces.run_eq]

end

end ScriptTree
