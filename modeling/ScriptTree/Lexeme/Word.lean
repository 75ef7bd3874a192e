import ScriptTree.Lexeme.Basic
import ScriptTree.Text.Search

/-! Words: identifiers, keywords and XML attribute names, with escapes written as `\u`. -/
namespace ScriptTree.Lexeme
open CharClass
variable [Alphabet]

/-- How many characters at the front of a text go on with an identifier. The hexadecimal digits of
an escape need no rule of their own, since they are identifier characters. -/
def wordLength : List Char → Nat
  | '\\' :: 'u' :: rest => wordLength rest + 2
  | c :: rest => if isIdentifierPart c then wordLength rest + 1 else 0
  | [] => 0

/-- Whether a word begins with `c` when `rest` follows. -/
def startsWord (c : Char) (rest : List Char) : Bool :=
  isIdentifierStart c || (c == '\\' && rest.head? == some 'u')

/-- The word that begins with `c`, a keyword if it is spelled like one. -/
def word (c : Char) (rest : List Char) : Lexeme :=
  let size := wordLength (c :: rest)
  let text := String.ofList ((c :: rest).take size)
  { kind := (Kind.ofKeyword? text).getD .identifier, size }

/-- The attribute after an at sign: a name, or a star for every name. -/
def xmlAttribute : List Char → Lexeme
  | '*' :: _ => { kind := .xmlAttribute, size := 2 }
  | c :: rest =>
    if isIdentifierStart c then { kind := .xmlAttribute, size := 1 + wordLength (c :: rest) }
    else invalid
  | [] => invalid

end ScriptTree.Lexeme
