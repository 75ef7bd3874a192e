import ScriptTree.Scanner.Basic
import ScriptTree.Scanner.Operator

/-!
XML literals. Their text is read in stretches: a stretch ends where the literal does, where an
embedded expression begins, or at the end of the input. `XmlState` is what is known of the literal
between two stretches.
-/
namespace ScriptTree

structure XmlState where
  /-- The number of open elements. -/
  depth : Nat := 0
  /-- Between the angle brackets of a tag. -/
  inTag : Bool := false
  /-- The tag is a closing one. -/
  closing : Bool := false
  /-- The quote of the attribute value being read. -/
  quote : Option Char := none
  deriving DecidableEq, Repr

/-- How a stretch of XML text ends. -/
inductive XmlEnd where
  | closed
  | embedded (state : XmlState)
  | endOfInput
  deriving DecidableEq, Repr

namespace XmlState

/-- Comments, character data and processing instructions: how many characters open one at the front
of a text, and the mark that closes it. -/
def section? (text : List Char) : Option (Nat × List Char) :=
  if Operator.startsWith text "<!--" then some (4, "-->".toList)
  else if Operator.startsWith text "<![CDATA[" then some (9, "]]>".toList)
  else if Operator.startsWith text "<?" then some (2, "?>".toList)
  else none

/-- Leave the tag together with the element it closes. -/
def leaveElement (s : XmlState) : XmlState := { s with inTag := false, depth := s.depth - 1 }

end XmlState

/-- What surrounds the place of a text: an XML literal, or an expression embedded in one, with the
number of its braces that are open. -/
inductive Mode where
  | xml (state : XmlState)
  | embedded (braces : Nat)
  deriving DecidableEq, Repr

def Mode.isXml : Mode → Bool
  | .xml _ => true
  | .embedded _ => false

/-- Where the first occurrence of `mark` begins among `bytes`. -/
def findBytes? (mark : List UInt8) : List UInt8 → Option Nat
  | [] => none
  | b :: rest =>
    if mark.isPrefixOf (b :: rest) then some 0 else (findBytes? mark rest).map (· + 1)

namespace Head

/-- Pass `skip` bytes and then everything up to the end of the next `mark`. Without one, go to the
end of the input. The second result tells which. -/
def skipPast (h : Head) (skip : Nat) (mark : List Char) : Option (Head × Bool) :=
  let bytes := encoded h.rest
  let start := min skip bytes.length
  match findBytes? (encoded mark) (bytes.drop start) with
  | some i => do return (← h.advance (start + i + (encoded mark).length), true)
  | none => do return (← h.advance bytes.length, false)

end Head

namespace XmlState

abbrev XmlTurn := Turn (XmlState × Head) (XmlEnd × Head)

/-- The end of an element or of a section at `h`, and of the literal when no element is open. -/
def afterClose (s : XmlState) (h : Head) : XmlTurn :=
  if s.depth == 0 then .done (.closed, h) else .again (s, h)

/-- A character between the angle brackets of a tag, outside attribute values. -/
def tagTurn (s : XmlState) (c : Char) (h : Head) : Option XmlTurn :=
  if c == '"' || c == '\'' then do return .again ({ s with quote := some c }, ← h.advance 1)
  else if c == '/' && h.charAt? 1 == some '>' then do
    return s.leaveElement.afterClose (← h.advance 2)
  else if c == '>' then do
    let h ← h.advance 1
    if s.closing then return s.leaveElement.afterClose h
    else return .again ({ s with inTag := false }, h)
  else do return .again (s, ← h.advanceChar c)

/-- An opening angle bracket outside tags. -/
def bracketTurn (s : XmlState) (h : Head) : Option XmlTurn :=
  match section? h.rest with
  | some (opening, mark) => do
    let (h, closed) ← h.skipPast opening mark
    if closed then return s.afterClose h else return .done (.endOfInput, h)
  | none =>
    if h.charAt? 1 == some '/' then do
      return .again ({ s with inTag := true, closing := true }, ← h.advance 2)
    else do
      return .again ({ s with inTag := true, closing := false, depth := s.depth + 1 },
        ← h.advance 1)

/-- Read on in XML text by one character, or by a whole comment or the like. -/
def turn : XmlState × Head → Option XmlTurn
  | (s, h) =>
    match h.char? with
    | none => some (.done (.endOfInput, h))
    | some c =>
      match s.quote with
      | some q => do
        return .again (if c == q then { s with quote := none } else s, ← h.advanceChar c)
      | none =>
        if c == '\x7b' then some (.done (.embedded s, h))
        else if s.inTag then s.tagTurn c h
        else if c == '<' then s.bracketTurn h
        else do return .again (s, ← h.advanceChar c)

/-- Read XML text to the end of its stretch. -/
def read (s : XmlState) (h : Head) : Option (XmlEnd × Head) := turns turn h.turnLimit (s, h)

end XmlState
end ScriptTree
