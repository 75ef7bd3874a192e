import ScriptTree.Lexeme.Basic
import ScriptTree.Text.Search

/-! Lexemes between delimiters: strings, regular expressions and comments. -/
namespace ScriptTree.Lexeme
open CharClass

/-- The rest of a string after its opening quote. A backslash takes in the character after it, and
a whole line end of two characters. -/
def stringExtent (quote : Char) : List Char → Extent
  | [] => ⟨0, false⟩
  | '\\' :: '\r' :: '\n' :: rest => (stringExtent quote rest).after 3
  | '\\' :: _ :: rest => (stringExtent quote rest).after 2
  | c :: rest =>
    if c == quote then ⟨1, true⟩
    else if isLineBreak c then ⟨0, false⟩
    else (stringExtent quote rest).after 1

section
variable [Alphabet]

/-- The rest of a regular expression after its opening slash. A slash inside a character class does
not close it; flags follow the slash that does. -/
def regExpExtent (inClass : Bool) : List Char → Extent
  | [] => ⟨0, false⟩
  | c :: rest =>
    if isLineBreak c then ⟨0, false⟩
    else if c == '\\' then
      match rest with
      | [] => ⟨1, false⟩
      | d :: after =>
        if isLineBreak d then ⟨1, false⟩ else (regExpExtent inClass after).after 2
    else if c == '/' && !inClass then ⟨1 + runLength isIdentifierPart rest, true⟩
    else
      (regExpExtent (if c == '[' then true else if c == ']' then false else inClass) rest).after 1

def regExp (rest : List Char) : Lexeme :=
  delimited .regularExpressionLiteral .unterminatedRegularExpression (regExpExtent false rest)

end

/-- The rest of a comment that runs to the end of its line. -/
def lineCommentLength (text : List Char) : Nat := runLength (fun c => !isLineBreak c) text

/-- The rest of a comment after its two opening characters. -/
def blockCommentExtent (text : List Char) : Extent :=
  match lengthThrough? ['*', '/'] text with
  | some n => ⟨n, true⟩
  | none => ⟨text.length, false⟩

def string (quote : Char) (rest : List Char) : Lexeme :=
  delimited .stringLiteral .unterminatedString (stringExtent quote rest)

/-- The comment after a slash, if one begins there. -/
def comment? : List Char → Option Lexeme
  | '/' :: rest => some { kind := .singleLineComment, size := lineCommentLength rest + 2 }
  | '*' :: rest =>
    some (delimited .multiLineComment .unterminatedComment ((blockCommentExtent rest).after 1))
  | _ => none

end ScriptTree.Lexeme
