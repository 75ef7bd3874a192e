import ScriptTree.Scanner.Call
import ScriptTree.Text.LineMap
import ScriptTree.Token

/-!
From a text to its tokens. `tokenize` and `pieces` call the scanner until the input has ended, and
differ in what they keep on the way: the one a token for each call, the other only where its
characters begin.
-/
namespace ScriptTree

/-- A place in a text: its position, its line counted from one, and where that line begins. -/
structure Place where
  offset : Nat := 0
  line : Nat := 1
  lineStart : Nat := 0
  deriving DecidableEq, Repr

/-- The place after the character `c`, which `next` follows. -/
def Place.step (p : Place) (c : Char) (next : Option Char) : Place :=
  let offset := p.offset + c.utf8Size
  if endsLine c next then ⟨offset, p.line + 1, offset⟩ else { p with offset }

/-- The column of a place, in bytes. -/
def Place.column (p : Place) : Nat := p.offset - p.lineStart

/-- A text read in part. -/
structure Scan where
  place : Place := {}
  modes : List Mode := []
  /-- The last significant token. -/
  previous : Option Kind := none
  /-- A line has ended since then. -/
  lineBroken : Bool := false
  tokens : Array Token := #[]
  diagnostics : Diagnostics := #[]

namespace Scan

/-- Report at the current place. -/
def report (s : Scan) (length : Nat) (m : Message) : Scan :=
  let span : Span := ⟨s.place.offset, length⟩
  { s with diagnostics := s.diagnostics.push (.located span (s.place.line - 1) m []) }

/-- Whether a hidden token ends a line for the grammar: a line end does, and a comment that holds
one. -/
def breaksLine (kind : Kind) (text : List Char) : Bool :=
  kind == .eol || (kind == .multiLineComment && text.any CharClass.isLineBreak)

/-- Add the token that a reading with the given characters makes at the current place. -/
def push (s : Scan) (r : Reading) (text : List Char) : Scan :=
  let hidden := r.kind.isHidden
  let token : Token :=
    { kind := r.kind
      text := String.ofList text
      line := s.place.line
      column := s.place.column
      index := s.tokens.size
      lineBreakBefore := !hidden && s.lineBroken
      unterminated := r.isUnterminated }
  let s := match r.fault with
    | some fault => s.report token.length fault.message
    | none => s
  { s with
    tokens := s.tokens.push token
    previous := if hidden then s.previous else some r.kind
    lineBroken := hidden && (s.lineBroken || breaksLine r.kind text) }

/-- Whether the last significant token may end an operand. -/
def afterOperand (s : Scan) : Bool := s.previous.any (·.endsOperand)

def pass (s : Scan) (c : Char) (next : Option Char) : Scan :=
  { s with place := s.place.step c next }

/-- Pass the characters of a token, which `next` follows. -/
def passText (s : Scan) (next : Option Char) : List Char → Scan
  | [] => s
  | c :: rest => (s.pass c (rest.head?.or next)).passText next rest

/-- What becomes of the scan by a call at `h`. -/
def keep (s : Scan) (h : Head) (x : Scanned) : Option Scan :=
  let s := if x.cutShort then s.report 0 .unterminatedXml else s
  match x.token with
  | none => some { s with modes := x.modes }
  | some r => do
    let text ← sliceTo? h.rest (x.stop.pos - h.pos)
    return { s.push r text with modes := x.modes }.passText x.stop.char? text

def caller : Caller Scan := ⟨modes, afterOperand, keep⟩

/-- The end of the input: an XML literal that is still open is reported there. -/
def finish (s : Scan) : Scan :=
  if s.modes.any (·.isXml) then s.report 0 .unterminatedXml else s

end Scan

/-- The tokens of a text and the lexical problems found in it. -/
structure Tokenized where
  tokens : Array Token
  diagnostics : Diagnostics

/-- A text cut without regard to the tokens before a place: an operand may begin anywhere. -/
structure Pieces where
  /-- Where the last piece ends. -/
  offset : Nat := 0
  modes : List Mode := []
  /-- The kind and the start of each piece. -/
  pieces : Array (Kind × Nat) := #[]
  diagnostics : Diagnostics := #[]

namespace Pieces

def keep (p : Pieces) (h : Head) (x : Scanned) : Option Pieces :=
  let p := if x.cutShort then
      { p with
        diagnostics := p.diagnostics.push (.located ⟨p.offset, 0⟩ 0 .unterminatedXml []) }
    else p
  match x.token with
  | none => some { p with modes := x.modes }
  | some r =>
    some { p with offset := x.stop.pos, modes := x.modes, pieces := p.pieces.push (r.kind, h.pos) }

def caller : Caller Pieces := ⟨modes, fun _ => false, keep⟩

end Pieces

section
variable [Alphabet]

/-- Split a text into tokens. XML literals are recognized if `xmlLiterals` is set. -/
def tokenize? (text : String) (xmlLiterals : Bool) : Option Tokenized :=
  (Scan.caller.run xmlLiterals text {}).map fun s =>
    let s := s.finish
    ⟨s.tokens, s.diagnostics⟩

/-- The tokens of a text; there would be none if the scan came to nothing. -/
def tokenize (text : String) (xmlLiterals : Bool) : Tokenized :=
  (tokenize? text xmlLiterals).getD ⟨#[], #[]⟩

/-- Cut a text into pieces by calling the scanner and nothing else. -/
def pieces? (text : String) (xmlLiterals : Bool) : Option Pieces :=
  Pieces.caller.run xmlLiterals text {}

/-- The pieces of a text; there would be none if the scan came to nothing. -/
def pieces (text : String) (xmlLiterals : Bool) : Pieces := (pieces? text xmlLiterals).getD {}

end

end ScriptTree
