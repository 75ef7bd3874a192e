import ScriptTree.Lexeme.Basic
import ScriptTree.Scanner.Markup
import ScriptTree.Text.Search

/-! XML literals, counted in characters: what each character does, and how long a stretch is. -/
namespace ScriptTree

/-- What a character of XML text does: open an embedded expression, end the literal together with
the `more` characters after it, or go on after as many. -/
inductive XmlStep where
  | embed
  | finish (more : Nat)
  | proceed (more : Nat) (state : XmlState)
  deriving DecidableEq, Repr

namespace XmlState

/-- Go on after `more` characters, or end the literal there when no element is open. -/
def proceedOrFinish (s : XmlState) (more : Nat) : XmlStep :=
  if s.depth == 0 then .finish more else .proceed more s

/-- A character between the angle brackets of a tag, outside attribute values. -/
def tagStep (s : XmlState) (c : Char) (rest : List Char) : XmlStep :=
  if c == '"' || c == '\'' then .proceed 0 { s with quote := some c }
  else if c == '/' && rest.head? == some '>' then s.leaveElement.proceedOrFinish 1
  else if c == '>' then
    if s.closing then s.leaveElement.proceedOrFinish 0
    else .proceed 0 { s with inTag := false }
  else .proceed 0 s

/-- An opening angle bracket outside tags, with `rest` after it. -/
def bracketStep (s : XmlState) (rest : List Char) : XmlStep :=
  match section? ('<' :: rest) with
  | some (opening, mark) =>
    match lengthThrough? mark (rest.drop (opening - 1)) with
    | some n => s.proceedOrFinish (opening - 1 + n)
    | none => .proceed rest.length s
  | none =>
    if rest.head? == some '/' then .proceed 1 { s with inTag := true, closing := true }
    else .proceed 0 { s with inTag := true, closing := false, depth := s.depth + 1 }

/-- What the character `c` does when `rest` follows. -/
def step (s : XmlState) (c : Char) (rest : List Char) : XmlStep :=
  match s.quote with
  | some q => .proceed 0 (if c == q then { s with quote := none } else s)
  | none =>
    if c == '{' then .embed
    else if s.inTag then s.tagStep c rest
    else if c == '<' then s.bracketStep rest
    else .proceed 0 s

/-- Pass over `skip` characters, then read XML text to the end of its stretch. The number counts
all characters of the stretch. -/
def stretch : Nat → XmlState → List Char → Nat × XmlEnd
  | _, _, [] => (0, .endOfInput)
  | skip + 1, s, _ :: rest =>
    let (n, e) := stretch skip s rest
    (n + 1, e)
  | 0, s, c :: rest =>
    match s.step c rest with
    | .embed => (0, .embedded s)
    | .finish more => (more + 1, .closed)
    | .proceed more s' =>
      let (n, e) := stretch more s' rest
      (n + 1, e)

end XmlState

namespace Lexeme
open CharClass

/-- Whether an XML literal begins with an opening angle bracket that `rest` follows. -/
def startsXml [Alphabet] (rest : List Char) : Bool :=
  rest.head?.any fun c => isIdentifierStart c || c == '>' || c == '!' || c == '?'

/-- The stretch of XML text that begins with `c`, and the modes after it: `outer` ones surround the
literal. -/
def xmlText (state : XmlState) (outer : List Mode) (c : Char) (rest : List Char) :
    Lexeme × List Mode :=
  match state.stretch 0 (c :: rest) with
  | (n, .closed) => ({ kind := .xmlFragmentEnd, size := n }, outer)
  | (n, .embedded s) => ({ kind := .xmlFragment, size := n }, .embedded 0 :: .xml s :: outer)
  | (n, .endOfInput) =>
    ({ kind := .xmlFragmentEnd, size := n, fault := some .unterminatedXml }, outer)

end Lexeme
end ScriptTree
