import ScriptTree.Lexeme.Basic
import ScriptTree.Text.Search

/-! Numeric literals: decimal, hexadecimal and octal. -/
namespace ScriptTree.Lexeme
open CharClass

/-- The length of an exponent at the front of a text, zero if there is none. An exponent has at
least one digit. -/
def exponentLength : List Char → Nat
  | e :: rest =>
    if e == 'e' || e == 'E' then
      let sign := match rest with
        | c :: _ => if c == '+' || c == '-' then 1 else 0
        | [] => 0
      let digits := runLength isDigit (rest.drop sign)
      if digits == 0 then 0 else 1 + sign + digits
    else 0
  | [] => 0

/-- The length of a fraction at the front of a text: a point and the digits after it. -/
def fractionLength : List Char → Nat
  | '.' :: rest => 1 + runLength isDigit rest
  | _ => 0

/-- The length of the decimal number at the front of a text. -/
def decimalLength (text : List Char) : Nat :=
  let whole := runLength isDigit text
  let fraction := fractionLength (text.drop whole)
  whole + fraction + exponentLength (text.drop (whole + fraction))

/-- The number that begins with `c`. -/
def number (c : Char) (rest : List Char) : Lexeme :=
  let decimal : Lexeme := { kind := .decimalLiteral, size := decimalLength (c :: rest) }
  if c == '0' then
    match rest with
    | [] => decimal
    | d :: digits =>
      if d == 'x' || d == 'X' then
        { kind := .hexIntegerLiteral, size := 2 + runLength isHexDigit digits }
      else
        let octals := runLength isOctalDigit rest
        if octals == 0 || (rest.drop octals).head?.any turnsDecimal then decimal
        else { kind := .octalIntegerLiteral, size := 1 + octals }
  else decimal

end ScriptTree.Lexeme
