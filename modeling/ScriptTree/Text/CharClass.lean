/-!
Classes of characters that the lexical grammar tells apart. Which characters outside ASCII may stand
in identifiers is left to an `Alphabet`.
-/
namespace ScriptTree

/-- The characters outside ASCII that identifiers are made of. Whatever may begin an identifier may
also continue one. -/
class Alphabet where
  mayStart : Char → Bool
  mayContinue : Char → Bool
  mayContinue_of_mayStart : ∀ {c : Char}, mayStart c = true → mayContinue c = true

namespace CharClass

def isLineBreak (c : Char) : Bool :=
  c == '\n' || c == '\r' || c == '\u2028' || c == '\u2029'

/-- Blank space within a line. -/
def isBlank (c : Char) : Bool :=
  c == ' ' || c == '\t' || c == '\x0b' || c == '\x0c' || c == '\u00a0' || c == '\u1680' ||
    ('\u2000' ≤ c && c ≤ '\u200a') || c == '\u202f' || c == '\u205f' || c == '\u3000' ||
    c == '\ufeff'

def isDigit (c : Char) : Bool := '0' ≤ c && c ≤ '9'

def isOctalDigit (c : Char) : Bool := '0' ≤ c && c ≤ '7'

def isHexDigit (c : Char) : Bool :=
  isDigit c || ('a' ≤ c && c ≤ 'f') || ('A' ≤ c && c ≤ 'F')

/-- Whether a number that began like an octal one turns out to be decimal with `c`. -/
def turnsDecimal (c : Char) : Bool :=
  c == '8' || c == '9' || c == '.' || c == 'e' || c == 'E'

def isLetter (c : Char) : Bool := ('a' ≤ c && c ≤ 'z') || ('A' ≤ c && c ≤ 'Z')

section
variable [Alphabet]

/-- Whether an identifier may begin with `c`. -/
def isIdentifierStart (c : Char) : Bool :=
  c == '_' || c == '$' || isLetter c || (0x7F < c.toNat && Alphabet.mayStart c)

/-- Whether an identifier may go on with `c`. -/
def isIdentifierPart (c : Char) : Bool :=
  c == '_' || c == '$' || isLetter c || isDigit c ||
    (0x7F < c.toNat && Alphabet.mayContinue c)

theorem isIdentifierPart_of_start {c : Char} (h : isIdentifierStart c = true) :
    isIdentifierPart c = true := by
  simp only [isIdentifierStart, Bool.or_eq_true, Bool.and_eq_true] at h
  simp only [isIdentifierPart, Bool.or_eq_true, Bool.and_eq_true]
  rcases h with ((h | h) | h) | ⟨h, hs⟩
  · exact .inl (.inl (.inl (.inl h)))
  · exact .inl (.inl (.inl (.inr h)))
  · exact .inl (.inl (.inr h))
  · exact .inr ⟨h, Alphabet.mayContinue_of_mayStart hs⟩

end

end CharClass

/-- In this alphabet no identifier begins with blank space or a line end. -/
class Alphabet.Spaced [Alphabet] : Prop where
  not_isLineBreak : ∀ {c : Char}, Alphabet.mayStart c = true → CharClass.isLineBreak c = false
  not_isBlank : ∀ {c : Char}, Alphabet.mayStart c = true → CharClass.isBlank c = false

end ScriptTree
