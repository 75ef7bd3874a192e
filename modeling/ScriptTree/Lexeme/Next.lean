import ScriptTree.Lexeme.Markup
import ScriptTree.Lexeme.Number
import ScriptTree.Lexeme.Quoted
import ScriptTree.Lexeme.Word
import ScriptTree.Token.Scan

/-!
The next lexeme of a text, and a text cut into lexemes. As for the scanner, what stands before a
place matters by whether an operand has just ended, and by the modes.
-/
namespace ScriptTree
namespace Lexeme
open CharClass

/-- The punctuation mark that begins with `c`, if one does. -/
def mark (c : Char) (rest : List Char) : Lexeme :=
  match Operator.read? c (c :: rest) with
  | some (k, n) => { kind := k, size := n }
  | none => invalid

section
variable [Alphabet]

/-- A slash: a comment, a regular expression where an operand may begin, or an operator. -/
def slash (afterOperand : Bool) (rest : List Char) : Lexeme :=
  match comment? rest with
  | some l => l
  | none => if afterOperand then mark '/' rest else regExp rest

/-- A lexeme that neither opens nor continues an XML literal. -/
def plain (afterOperand : Bool) (c : Char) (rest : List Char) : Lexeme :=
  if isLineBreak c then
    { kind := .eol, size := if c == '\r' && rest.head? == some '\n' then 2 else 1 }
  else if isBlank c then { kind := .whiteSpace, size := 1 + runLength isBlank rest }
  else if c == '"' || c == '\'' then string c rest
  else if c == '@' then xmlAttribute rest
  else if isDigit c || (c == '.' && rest.head?.any isDigit) then number c rest
  else if startsWord c rest then word c rest
  else if c == '/' then slash afterOperand rest
  else mark c rest

/-- The lexeme outside XML text that begins with `c`, and the modes after it. -/
def ordinary (xmlLiterals afterOperand : Bool) (modes : List Mode) (c : Char) (rest : List Char) :
    Lexeme × List Mode :=
  if c == '{' then (mark c rest, Mode.openBrace modes)
  else if c == '}' then (mark c rest, Mode.closeBrace modes)
  else if c == '<' && xmlLiterals && !afterOperand && startsXml rest then xmlText {} modes c rest
  else (plain afterOperand c rest, modes)

/-- The lexeme that begins with `c`, and the modes after it. -/
def next (xmlLiterals afterOperand : Bool) (modes : List Mode) (c : Char) (rest : List Char) :
    Lexeme × List Mode :=
  match modes with
  | .xml state :: outer =>
    if c == '{' && state.quote.isNone then
      ordinary xmlLiterals afterOperand (.embedded 0 :: modes) c rest
    else xmlText state outer c rest
  | _ => ordinary xmlLiterals afterOperand modes c rest

end
end Lexeme

/-- Go through a text. At a place where no lexeme is being passed over, `emit` reads the next one
and tells how many characters it has after the first; `pass` takes note of each character. -/
def cut {σ : Type} (emit : σ → Char → List Char → σ × Nat) (pass : σ → Char → Option Char → σ) :
    Nat → List Char → σ → σ
  | _, [], s => s
  | skip + 1, c :: rest, s => cut emit pass skip rest (pass s c rest.head?)
  | 0, c :: rest, s =>
    let (s', more) := emit s c rest
    cut emit pass more rest (pass s' c rest.head?)

namespace Scan

/-- Read the lexeme that begins with `c`. -/
def take [Alphabet] (xmlLiterals : Bool) (s : Scan) (c : Char) (rest : List Char) : Scan × Nat :=
  let (l, modes) := Lexeme.next xmlLiterals s.afterOperand s.modes c rest
  ({ s.push l ((c :: rest).take l.size) with modes }, l.more)

/-- The end of the input right after an embedded expression ends the innermost XML literal. -/
def closeText (s : Scan) : Scan :=
  match s.modes with
  | .xml _ :: outer => { s.report 0 .unterminatedXml with modes := outer }
  | _ => s

end Scan

namespace Pieces

def take [Alphabet] (xmlLiterals : Bool) (s : Pieces) (c : Char) (rest : List Char) :
    Pieces × Nat :=
  let (l, modes) := Lexeme.next xmlLiterals false s.modes c rest
  ({ s with modes, pieces := s.pieces.push (l.kind, s.offset) }, l.more)

def pass (s : Pieces) (c : Char) (_next : Option Char) : Pieces :=
  { s with offset := s.offset + c.utf8Size }

/-- The end of the input, as for a scan. -/
def closeText (p : Pieces) : Pieces :=
  match p.modes with
  | .xml _ :: outer =>
    { p with
      modes := outer
      diagnostics := p.diagnostics.push (.located ⟨p.offset, 0⟩ 0 .unterminatedXml []) }
  | _ => p

end Pieces
end ScriptTree
