import ScriptTree.Scanner.Basic

/-!
Lexemes: what the scanner reads at one place of a text, counted in characters. A reader tells how
many it has read, which may be none; `Lexeme.next_size_pos` shows that a lexeme has at least one.
-/
namespace ScriptTree

structure Lexeme extends Reading where
  /-- The number of characters. -/
  size : Nat
  deriving DecidableEq, Repr

namespace Lexeme

instance : Coe Lexeme Reading := ⟨toReading⟩

/-- How many characters follow the first one. -/
def more (l : Lexeme) : Nat := l.size - 1

/-- A single character that begins no token. -/
def invalid : Lexeme := { toReading := .invalid, size := 1 }

end Lexeme

/-- How far a delimited lexeme reaches, and whether it has its closing delimiter. -/
structure Extent where
  length : Nat
  closed : Bool
  deriving DecidableEq, Repr

/-- The extent with `n` characters put in front. -/
def Extent.after (e : Extent) (n : Nat) : Extent := { e with length := e.length + n }

/-- A delimited lexeme: `e` tells what follows its first character. -/
def Lexeme.delimited (kind : Kind) (fault : LexicalFault) (e : Extent) : Lexeme :=
  { toReading := .delimited kind fault e.closed, size := e.length + 1 }

end ScriptTree
