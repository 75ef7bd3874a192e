import ScriptTree.Kind

/-!
Punctuation marks and operators, told by looking ahead from their first character: at the next one,
at the next two, or for one spelling after the other. `text` is the text from that first character
on. Each function gives the kind of the mark and the number of its bytes.
-/
namespace ScriptTree.Operator

def startsWith (text : List Char) (mark : String) : Bool := mark.toList.isPrefixOf text

/-- An operator that an equals sign may follow. -/
def withEquals (single assign : Kind) (text : List Char) : Kind × Nat :=
  if text[1]? == some '=' then (assign, 2) else (single, 1)

/-- An operator that an equals sign or the character `c` itself may follow. -/
def doubled (c : Char) (single assign twice : Kind) (text : List Char) : Kind × Nat :=
  if text[1]? == some c then (twice, 2) else withEquals single assign text

def dot (text : List Char) : Kind × Nat :=
  match text[1]? with
  | some '.' => (.dotDot, 2)
  | _ => (.dot, 1)

def colon (text : List Char) : Kind × Nat :=
  if text[1]? == some ':' then (.colonColon, 2) else (.colon, 1)

/-- A slash that divides. -/
def slash (text : List Char) : Kind × Nat :=
  match text[1]? with
  | some '=' => (.slashEquals, 2)
  | _ => (.slash, 1)

def lessThan (text : List Char) : Kind × Nat :=
  match text[1]?, text[2]? with
  | some '<', some '=' => (.lessThanLessThanEquals, 3)
  | some '<', _ => (.lessThanLessThan, 2)
  | some '=', _ => (.lessThanEquals, 2)
  | _, _ => (.lessThan, 1)

def greaterThan (text : List Char) : Kind × Nat :=
  if startsWith text ">>>=" then (.greaterThanGreaterThanGreaterThanEquals, 4)
  else if startsWith text ">>>" then (.greaterThanGreaterThanGreaterThan, 3)
  else if startsWith text ">>=" then (.greaterThanGreaterThanEquals, 3)
  else if startsWith text ">>" then (.greaterThanGreaterThan, 2)
  else if startsWith text ">=" then (.greaterThanEquals, 2)
  else (.greaterThan, 1)

def equals (text : List Char) : Kind × Nat :=
  if startsWith text "===" then (.equalsEqualsEquals, 3)
  else if startsWith text "==" then (.equalsEquals, 2)
  else (.equals, 1)

def exclamation (text : List Char) : Kind × Nat :=
  if startsWith text "!==" then (.exclamationEqualsEquals, 3)
  else if startsWith text "!=" then (.exclamationEquals, 2)
  else (.exclamation, 1)

def plus (text : List Char) : Kind × Nat :=
  match text[1]? with
  | some '+' => (.plusPlus, 2)
  | some '=' => (.plusEquals, 2)
  | _ => (.plus, 1)

def minus (text : List Char) : Kind × Nat :=
  match text[1]? with
  | some '-' => (.minusMinus, 2)
  | some '=' => (.minusEquals, 2)
  | _ => (.minus, 1)

/-- The mark that begins with `c` at the front of `text`, if one does. -/
def read? (c : Char) (text : List Char) : Option (Kind × Nat) :=
  match c with
  | '(' => some (.openParen, 1)
  | ')' => some (.closeParen, 1)
  | '[' => some (.openBracket, 1)
  | ']' => some (.closeBracket, 1)
  | ';' => some (.semicolon, 1)
  | ',' => some (.comma, 1)
  | '~' => some (.tilde, 1)
  | '?' => some (.question, 1)
  | '\x7b' => some (.openBrace, 1)
  | '\x7d' => some (.closeBrace, 1)
  | '.' => some (dot text)
  | ':' => some (colon text)
  | '/' => some (slash text)
  | '<' => some (lessThan text)
  | '>' => some (greaterThan text)
  | '=' => some (equals text)
  | '!' => some (exclamation text)
  | '+' => some (plus text)
  | '-' => some (minus text)
  | '*' => some (withEquals .asterisk .asteriskEquals text)
  | '%' => some (withEquals .percent .percentEquals text)
  | '^' => some (withEquals .caret .caretEquals text)
  | '&' => some (doubled '&' .ampersand .ampersandEquals .ampersandAmpersand text)
  | '|' => some (doubled '|' .bar .barEquals .barBar text)
  | _ => none

end ScriptTree.Operator
