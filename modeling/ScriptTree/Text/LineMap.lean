/-!
Lines of a source text. A line ends after a line feed, after a carriage return that no line feed
follows, or after the pair of the two. `LineMap` keeps where each line begins, so that positions
and pairs of line and column can be turned into each other.
-/
namespace ScriptTree

/-- Whether a line ends right after `c` when `next` is the character that follows. -/
def endsLine (c : Char) (next : Option Char) : Bool :=
  c == '\n' || (c == '\r' && next != some '\n')

/-- The starts of the lines that begin inside `text` (not at its first character), where `text`
stands at position `pos`. -/
def laterLineStarts (pos : Nat) : List Char → List Nat
  | [] => []
  | c :: rest =>
    let next := pos + c.utf8Size
    if endsLine c rest.head? then next :: laterLineStarts next rest else laterLineStarts next rest

/-- Where the lines of a text begin, and how long the text is. -/
structure LineMap where
  starts : List Nat
  length : Nat
  deriving DecidableEq, Repr

/-- A line, counted from zero, and a column in bytes from the start of that line. -/
structure LineColumn where
  line : Nat
  column : Nat
  deriving DecidableEq, Repr

namespace LineMap

def ofText (text : String) : LineMap := ⟨0 :: laterLineStarts 0 text.toList, text.utf8ByteSize⟩

/-- The last line that begins at or before `pos`. -/
def lineOf (m : LineMap) (pos : Nat) : Nat := (m.starts.takeWhile (· ≤ pos)).length - 1

/-- Where `line` begins. Lines past the last one begin at the end of the text. -/
def lineStart (m : LineMap) (line : Nat) : Nat := m.starts[line]?.getD m.length

def locate (m : LineMap) (pos : Nat) : LineColumn :=
  let line := m.lineOf pos
  ⟨line, pos - m.lineStart line⟩

/-- The position at a line and column, moved back to the end of the text when it lies past it. -/
def offsetOf (m : LineMap) (line column : Nat) : Nat := min (m.lineStart line + column) m.length

def lineCount (m : LineMap) : Nat := m.starts.length

def isEmpty (m : LineMap) : Bool := m.length == 0

end LineMap
end ScriptTree
