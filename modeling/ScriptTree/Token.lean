import ScriptTree.Kind

/-!
Tokens. A token list is complete: blank space, line ends and comments are tokens too, and the texts
of a source's tokens, put together, give the source back.
-/
namespace ScriptTree

structure Token where
  kind : Kind
  text : String
  /-- The line of the first character, counted from one. -/
  line : Nat
  /-- The column of the first character, in bytes and counted from zero. -/
  column : Nat
  /-- The place of the token in the full list. -/
  index : Nat
  /-- A line ended between the significant token before and this one. -/
  lineBreakBefore : Bool := false
  /-- The closing delimiter of the token is missing. -/
  unterminated : Bool := false
  deriving DecidableEq, Repr

namespace Token

/-- The length of the token in bytes. -/
def length (t : Token) : Nat := t.text.utf8ByteSize

def isEmpty (t : Token) : Bool := t.text.isEmpty

def isHidden (t : Token) : Bool := t.kind.isHidden

/-- The text of the token in quotes, for messages. -/
def quoted (t : Token) : String := s!"'{t.text}'"

end Token
end ScriptTree
