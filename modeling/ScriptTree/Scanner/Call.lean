import ScriptTree.Scanner.Readers

/-!
A call of the scanner. What stands before a place matters in two ways: after the end of an operand a
slash divides and an angle bracket compares, and inside an XML literal the text is not tokens but
markup. The first is one truth value, the second the list of modes, innermost first.
-/
namespace ScriptTree
open CharClass

/-- What a call of the scanner gives. -/
structure Scanned where
  /-- The token read. There is none at the end of the input. -/
  token : Option Reading
  /-- Where the token ends. -/
  stop : Head
  modes : List Mode
  /-- An XML literal has ended with the input, where it would have gone on. -/
  cutShort : Bool := false
  deriving DecidableEq, Repr

/-- The modes after an opening brace. -/
def Mode.openBrace : List Mode → List Mode
  | .embedded braces :: outer => .embedded (braces + 1) :: outer
  | modes => modes

/-- The modes after a closing brace, which may end an embedded expression. -/
def Mode.closeBrace : List Mode → List Mode
  | .embedded braces :: outer =>
    if braces - 1 == 0 then outer else .embedded (braces - 1) :: outer
  | modes => modes

namespace Head

/-- A punctuation mark or operator. -/
def mark (op : Kind × Nat) (h : Head) : Option (Reading × Head) := do
  return ({ kind := op.1 }, ← h.advance op.2)

/-- The stretch of XML text that begins here, in the innermost mode; `outer` ones surround the
literal. A stretch without characters is no token: an embedded expression follows at once, or the
input has ended. -/
def scanXml (state : XmlState) (outer : List Mode) (h : Head) : Option Scanned := do
  match ← state.read h with
  | (.closed, stop) => return { token := some { kind := .xmlFragmentEnd }, stop, modes := outer }
  | (.embedded s, stop) =>
    return {
      token := if h.pos < stop.pos then some { kind := .xmlFragment } else none
      stop
      modes := .embedded 0 :: .xml s :: outer }
  | (.endOfInput, stop) =>
    if h.pos < stop.pos then
      return {
        token := some { kind := .xmlFragmentEnd, fault := some .unterminatedXml }
        stop
        modes := outer }
    else return { token := none, stop, modes := outer, cutShort := true }

section
variable [Alphabet]

/-- A point: part of a number if a digit follows. -/
def dot (h : Head) : Option (Reading × Head) :=
  if (h.charAt? 1).any isDigit then h.number else h.mark (Operator.dot h.rest)

/-- A slash: a comment, a regular expression where an operand may begin, or an operator. -/
def slash (afterOperand : Bool) (h : Head) : Option (Reading × Head) :=
  match h.charAt? 1 with
  | some '/' => h.lineComment
  | some '*' => h.blockComment
  | _ => if afterOperand then h.mark (Operator.slash h.rest) else h.regExp

/-- A token that does not concern XML literals. `c` is its first character. -/
def plain (afterOperand : Bool) (c : Char) (h : Head) : Option (Reading × Head) :=
  if c == '\n' || c == '\u2028' || c == '\u2029' then do
    return ({ kind := .eol }, ← h.advanceChar c)
  else if c == '\r' then do
    let h ← h.advance 1
    return ({ kind := .eol }, ← if h.char? == some '\n' then h.advance 1 else some h)
  else if isBlank c then h.whiteSpace
  else if c == '.' then h.dot
  else if c == '/' then h.slash afterOperand
  else
    match Operator.read? c h.rest with
    | some op => h.mark op
    | none =>
      if c == '\'' || c == '"' then h.string c
      else if c == '@' then h.xmlAttribute
      else if isDigit c then h.number
      else if c == '\\' && h.charAt? 1 == some 'u' then h.word
      else if isIdentifierStart c then h.word
      else do return (.invalid, ← h.advanceChar c)

/-- Whether an XML literal begins with the angle bracket that comes next. -/
def startsXml (h : Head) : Bool :=
  (h.charAt? 1).any fun c => isIdentifierStart c || c == '>' || c == '!' || c == '?'

/-- An opening angle bracket. -/
def lessThan (xmlLiterals afterOperand : Bool) (modes : List Mode) (h : Head) : Option Scanned :=
  let operator (modes : List Mode) (h : Head) : Option Scanned := do
    let (r, stop) ← h.mark (Operator.lessThan h.rest)
    return { token := some r, stop, modes }
  if xmlLiterals && !afterOperand && h.startsXml then do
    let x ← h.scanXml {} modes
    if x.token.isSome then return x
    else return { ← operator x.modes x.stop with cutShort := x.cutShort }
  else operator modes h

/-- Read a token outside XML text. -/
def scanToken (xmlLiterals afterOperand : Bool) (modes : List Mode) (h : Head) : Option Scanned :=
  match h.char? with
  | none => some { token := none, stop := h, modes }
  | some c =>
    if c == '\x7b' then do
      return { token := some { kind := .openBrace }, stop := ← h.advance 1,
               modes := Mode.openBrace modes }
    else if c == '\x7d' then do
      return { token := some { kind := .closeBrace }, stop := ← h.advance 1,
               modes := Mode.closeBrace modes }
    else if c == '<' then h.lessThan xmlLiterals afterOperand modes
    else do
      let (r, stop) ← h.plain afterOperand c
      return { token := some r, stop, modes }

/-- Read the next token. Where XML text gives none, the token after it is read at once. -/
def scan (xmlLiterals afterOperand : Bool) (modes : List Mode) (h : Head) : Option Scanned :=
  match modes with
  | .xml state :: outer => do
    let x ← h.scanXml state outer
    if x.token.isSome then return x
    else
      let y ← x.stop.scanToken xmlLiterals afterOperand x.modes
      return { y with cutShort := x.cutShort || y.cutShort }
  | _ => h.scanToken xmlLiterals afterOperand modes

end
end Head

/-- A loop of calls of the scanner. Between two calls it has a state, which tells the modes and
whether an operand has just ended; `keep` tells what becomes of it by a call at a place. -/
structure Caller (σ : Type) where
  modes : σ → List Mode
  afterOperand : σ → Bool
  keep : σ → Head → Scanned → Option σ

namespace Caller
variable {σ : Type} [Alphabet]

/-- Call the scanner once. The loop is over when it gives no token. -/
def turn (caller : Caller σ) (xmlLiterals : Bool) : σ × Head → Option (Turn (σ × Head) σ)
  | (s, h) => do
    let x ← h.scan xmlLiterals (caller.afterOperand s) (caller.modes s)
    let s' ← caller.keep s h x
    return if x.token.isSome then .again (s', x.stop) else .done s'

/-- Call the scanner for all of a text. -/
def run (caller : Caller σ) (xmlLiterals : Bool) (text : String) (s : σ) : Option σ :=
  let h : Head := { rest := text.toList }
  turns (caller.turn xmlLiterals) h.turnLimit (s, h)

end Caller
end ScriptTree
