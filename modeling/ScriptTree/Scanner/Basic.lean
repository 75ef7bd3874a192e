import ScriptTree.Diagnostic
import ScriptTree.Kind.Spelling
import ScriptTree.Text.CharClass

/-!
The scanner's hold on its text. A text is gone through by positions in bytes, and what stands from a
position on can be seen only where a character begins: a slice anywhere else gives nothing, and the
scan comes to nothing with it. Loops are bounded, and one that is not over by then gives nothing
either.
-/
namespace ScriptTree

/-- The characters of `text` from byte `n` on. None if `n` lies inside a character or past the end
of the text. -/
def sliceFrom? : List Char → Nat → Option (List Char)
  | text, 0 => some text
  | [], _ + 1 => none
  | c :: rest, n + 1 => if n + 1 < c.utf8Size then none else sliceFrom? rest (n + 1 - c.utf8Size)

/-- The characters of `text` before byte `n`. None if `n` lies inside a character or past the end of
the text. -/
def sliceTo? : List Char → Nat → Option (List Char)
  | _, 0 => some []
  | [], _ + 1 => none
  | c :: rest, n + 1 =>
    if n + 1 < c.utf8Size then none
    else (sliceTo? rest (n + 1 - c.utf8Size)).map (c :: ·)

/-- The bytes of characters. -/
def encoded (text : List Char) : List UInt8 := text.flatMap String.utf8EncodeChar

/-- Where the scanner stands: its position in bytes, and the characters from there on. -/
structure Head where
  pos : Nat := 0
  rest : List Char
  deriving DecidableEq, Repr

namespace Head

def char? (h : Head) : Option Char := h.rest.head?

/-- The character that is `n` characters past the next one. -/
def charAt? (h : Head) (n : Nat) : Option Char := h.rest[n]?

/-- Move on by `n` bytes. -/
def advance (h : Head) (n : Nat) : Option Head := (sliceFrom? h.rest n).map (⟨h.pos + n, ·⟩)

/-- Move on by the bytes of `c`. -/
def advanceChar (h : Head) (c : Char) : Option Head := h.advance c.utf8Size

end Head

/-- What a turn of a loop comes to: another turn, or the result of the loop. -/
inductive Turn (σ ρ : Type) where
  | again (s : σ)
  | done (r : ρ)

section
variable {σ ρ : Type}

/-- Take turns, at most `limit` of them. None if a turn gives nothing, or if the last of them is not
the end of the loop. -/
def turns (turn : σ → Option (Turn σ ρ)) : Nat → σ → Option ρ
  | 0, _ => none
  | limit + 1, s =>
    match turn s with
    | some (.again s') => turns turn limit s'
    | some (.done r) => some r
    | none => none

/-- The states with which the turns of a loop begin. -/
def turnStates (turn : σ → Option (Turn σ ρ)) : Nat → σ → List σ
  | 0, _ => []
  | limit + 1, s =>
    s :: match turn s with
      | some (.again s') => turnStates turn limit s'
      | _ => []

end

namespace Head

/-- More turns than there are characters: enough for a loop that passes one in every turn. -/
def turnLimit (h : Head) : Nat := h.rest.length + 1

def skipTurn (p : Char → Bool) (h : Head) : Option (Turn Head Head) :=
  match h.char?.filter p with
  | some c => do return .again (← h.advanceChar c)
  | none => some (.done h)

/-- Pass the characters that satisfy `p`, up to the first that does not. -/
def skipWhile (p : Char → Bool) (h : Head) : Option Head := turns (skipTurn p) h.turnLimit h

end Head

/-- What may be wrong with a token. -/
inductive LexicalFault where
  | invalidCharacter | unterminatedString | unterminatedComment | unterminatedRegularExpression
  | unterminatedXml
  deriving DecidableEq, Repr

namespace LexicalFault

def message : LexicalFault → Message
  | .invalidCharacter => .invalidCharacter
  | .unterminatedString => .unterminatedString
  | .unterminatedComment => .unterminatedComment
  | .unterminatedRegularExpression => .unterminatedRegularExpression
  | .unterminatedXml => .unterminatedXml

/-- Whether a closing delimiter is missing. -/
def isUnterminated (f : LexicalFault) : Bool := f != .invalidCharacter

end LexicalFault

/-- What the characters read show: the kind of a token, and what is wrong with it. -/
structure Reading where
  kind : Kind
  fault : Option LexicalFault := none
  deriving DecidableEq, Repr

namespace Reading

def isUnterminated (r : Reading) : Bool := r.fault.any (·.isUnterminated)

/-- A token that should end with a delimiter, which may be missing. -/
def delimited (kind : Kind) (fault : LexicalFault) (closed : Bool) : Reading :=
  { kind, fault := if closed then none else some fault }

@[simp] theorem delimited_kind (kind : Kind) (fault : LexicalFault) (closed : Bool) :
    (delimited kind fault closed).kind = kind := rfl

/-- A character that begins no token. -/
def invalid : Reading := { kind := .unknown, fault := some .invalidCharacter }

@[simp] theorem invalid_kind : invalid.kind = .unknown := rfl

end Reading
end ScriptTree
