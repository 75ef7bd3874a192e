import ScriptTree.Scanner.Markup

/-!
The readers of the scanner, one for each sort of token that is more than a mark: blank space, words,
numbers, and what stands between delimiters. A reader starts at the first character of the token and
gives the place where the token ends.
-/
namespace ScriptTree.Head
open CharClass

def whiteSpace (h : Head) : Option (Reading × Head) := do
  return ({ kind := .whiteSpace }, ← h.skipWhile isBlank)

/-! Words: identifiers, keywords and XML attribute names, with escapes written as `\u`. -/

/-- Pass hexadecimal digits, at most `n` of them. -/
def skipHexDigits : Nat → Head → Option Head
  | 0, h => some h
  | n + 1, h => if h.char?.any isHexDigit then do skipHexDigits n (← h.advance 1) else some h

section
variable [Alphabet]

def wordTurn (h : Head) : Option (Turn Head Head) :=
  match h.char? with
  | none => some (.done h)
  | some c =>
    if isIdentifierPart c then do return .again (← h.advanceChar c)
    else if c == '\\' && h.charAt? 1 == some 'u' then do
      return .again (← skipHexDigits 4 (← h.advance 2))
    else some (.done h)

/-- Pass the characters and escapes of an identifier. -/
def skipWord (h : Head) : Option Head := turns wordTurn h.turnLimit h

/-- A word is a keyword if it is spelled like one. -/
def word (h : Head) : Option (Reading × Head) := do
  let stop ← h.skipWord
  let text ← sliceTo? h.rest (stop.pos - h.pos)
  return ({ kind := (Kind.ofKeyword? (String.ofList text)).getD .identifier }, stop)

/-- An at sign, and the name of an attribute or a star for every name. -/
def xmlAttribute (h : Head) : Option (Reading × Head) := do
  let h ← h.advance 1
  match h.char? with
  | some c =>
    if c == '*' then return ({ kind := .xmlAttribute }, ← h.advance 1)
    else if isIdentifierStart c then return ({ kind := .xmlAttribute }, ← h.skipWord)
    else return (.invalid, h)
  | none => return (.invalid, h)

end

/-! Numbers: decimal, hexadecimal and octal. -/

/-- Whether digits of an exponent follow its letter, which comes next. -/
def exponentFollows (h : Head) : Bool :=
  match h.charAt? 1 with
  | some c => if c == '+' || c == '-' then (h.charAt? 2).any isDigit else isDigit c
  | none => false

def skipExponent (h : Head) : Option Head :=
  if h.char?.any (fun c => c == 'e' || c == 'E') && h.exponentFollows then do
    let h ← h.advance 1
    let h ← if h.char?.any (fun c => c == '+' || c == '-') then h.advance 1 else some h
    h.skipWhile isDigit
  else some h

def skipFraction (h : Head) : Option Head :=
  if h.char? == some '.' then do (← h.advance 1).skipWhile isDigit else some h

def decimal (h : Head) : Option (Reading × Head) := do
  let whole ← h.skipWhile isDigit
  let fraction ← whole.skipFraction
  return ({ kind := .decimalLiteral }, ← fraction.skipExponent)

/-- A zero with octal digits after it. If the number turns out to be decimal, it is read anew. -/
def octal (h : Head) : Option (Reading × Head) := do
  let stop ← (← h.advance 1).skipWhile isOctalDigit
  if stop.char?.any turnsDecimal then h.decimal else return ({ kind := .octalIntegerLiteral }, stop)

def number (h : Head) : Option (Reading × Head) :=
  if h.char? == some '0' then
    match h.charAt? 1 with
    | some c =>
      if c == 'x' || c == 'X' then do
        return ({ kind := .hexIntegerLiteral }, ← (← h.advance 2).skipWhile isHexDigit)
      else if isOctalDigit c then h.octal
      else h.decimal
    | none => h.decimal
  else h.decimal

/-! What stands between delimiters: strings, regular expressions and comments. -/

/-- Pass what a backslash takes in: a character, or a whole line end of two. -/
def skipEscaped (h : Head) : Option Head :=
  match h.char? with
  | some c =>
    if c == '\r' then do
      let h ← h.advance 1
      if h.char? == some '\n' then h.advance 1 else some h
    else h.advanceChar c
  | none => some h

def stringTurn (quote : Char) (h : Head) : Option (Turn Head (Bool × Head)) :=
  match h.char? with
  | none => some (.done (false, h))
  | some c =>
    if c == quote then do return .done (true, ← h.advance 1)
    else if c == '\\' then do return .again (← (← h.advance 1).skipEscaped)
    else if isLineBreak c then some (.done (false, h))
    else do return .again (← h.advanceChar c)

def string (quote : Char) (h : Head) : Option (Reading × Head) := do
  let h ← h.advance 1
  let (closed, stop) ← turns (stringTurn quote) h.turnLimit h
  return (.delimited .stringLiteral .unterminatedString closed, stop)

section
variable [Alphabet]

/-- A slash inside a character class does not close a regular expression; flags follow the slash
that does. -/
def regExpTurn : Bool × Head → Option (Turn (Bool × Head) (Bool × Head))
  | (inClass, h) =>
    match h.char? with
    | none => some (.done (false, h))
    | some c =>
      if isLineBreak c then some (.done (false, h))
      else if c == '\\' then do
        let h ← h.advance 1
        match h.char?.filter (fun d => !isLineBreak d) with
        | some d => return .again (inClass, ← h.advanceChar d)
        | none => return .again (inClass, h)
      else if c == '/' && !inClass then do
        return .done (true, ← (← h.advance 1).skipWhile isIdentifierPart)
      else do
        return .again (if c == '[' then true else if c == ']' then false else inClass,
          ← h.advanceChar c)

def regExp (h : Head) : Option (Reading × Head) := do
  let h ← h.advance 1
  let (closed, stop) ← turns regExpTurn h.turnLimit (false, h)
  return (.delimited .regularExpressionLiteral .unterminatedRegularExpression closed, stop)

end

/-- Where the line ends, looked for among the bytes of `text` from position `i` on. A line feed and
a carriage return are bytes of their own, and 0xE2 is the first byte of a line separator and a
paragraph separator, but also of other characters. -/
def lineEnd? (text : List Char) (i : Nat) : List UInt8 → Option Nat
  | [] => some i
  | b :: rest =>
    if b == 0x0A || b == 0x0D then some i
    else if b == 0xE2 then do
      let after ← sliceFrom? text i
      if after.head?.any (fun c => c == '\u2028' || c == '\u2029') then some i
      else lineEnd? text (i + 1) rest
    else lineEnd? text (i + 1) rest

/-- A comment up to the end of its line. -/
def lineComment (h : Head) : Option (Reading × Head) := do
  let n ← lineEnd? h.rest 2 ((encoded h.rest).drop 2)
  return ({ kind := .singleLineComment }, ← h.advance n)

/-- A comment up to its closing mark. -/
def blockComment (h : Head) : Option (Reading × Head) := do
  let (stop, closed) ← h.skipPast 2 ['*', '/']
  return (.delimited .multiLineComment .unterminatedComment closed, stop)

end ScriptTree.Head
