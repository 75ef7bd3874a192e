import ScriptTree.Kind

/-!
Spellings. Punctuation and keywords are always written in the same way, which the two functions
below tell; `ofKeyword?` goes back from a word to its kind.
-/
namespace ScriptTree.Kind

/-- How a keyword is written. -/
def keywordText? : Kind → Option String
  | .breakKeyword => some "break"
  | .caseKeyword => some "case"
  | .catchKeyword => some "catch"
  | .constKeyword => some "const"
  | .continueKeyword => some "continue"
  | .defaultKeyword => some "default"
  | .deleteKeyword => some "delete"
  | .doKeyword => some "do"
  | .elseKeyword => some "else"
  | .falseKeyword => some "false"
  | .finallyKeyword => some "finally"
  | .forKeyword => some "for"
  | .functionKeyword => some "function"
  | .ifKeyword => some "if"
  | .inKeyword => some "in"
  | .instanceOfKeyword => some "instanceof"
  | .newKeyword => some "new"
  | .nullKeyword => some "null"
  | .returnKeyword => some "return"
  | .switchKeyword => some "switch"
  | .thisKeyword => some "this"
  | .throwKeyword => some "throw"
  | .trueKeyword => some "true"
  | .tryKeyword => some "try"
  | .typeOfKeyword => some "typeof"
  | .varKeyword => some "var"
  | .voidKeyword => some "void"
  | .whileKeyword => some "while"
  | .withKeyword => some "with"
  | .yieldKeyword => some "yield"
  | .eachKeyword => some "each"
  | .getKeyword => some "get"
  | .setKeyword => some "set"
  | .xmlKeyword => some "xml"
  | .namespaceKeyword => some "namespace"
  | _ => none

/-- How a punctuation mark or operator is written. -/
def punctuationText? : Kind → Option String
  | .openBrace => some "\x7b"
  | .closeBrace => some "\x7d"
  | .openParen => some "("
  | .closeParen => some ")"
  | .openBracket => some "["
  | .closeBracket => some "]"
  | .dot => some "."
  | .dotDot => some ".."
  | .semicolon => some ";"
  | .comma => some ","
  | .lessThan => some "<"
  | .greaterThan => some ">"
  | .lessThanEquals => some "<="
  | .greaterThanEquals => some ">="
  | .equalsEquals => some "=="
  | .exclamationEquals => some "!="
  | .equalsEqualsEquals => some "==="
  | .exclamationEqualsEquals => some "!=="
  | .plus => some "+"
  | .minus => some "-"
  | .asterisk => some "*"
  | .slash => some "/"
  | .percent => some "%"
  | .plusPlus => some "++"
  | .minusMinus => some "--"
  | .lessThanLessThan => some "<<"
  | .greaterThanGreaterThan => some ">>"
  | .greaterThanGreaterThanGreaterThan => some ">>>"
  | .ampersand => some "&"
  | .bar => some "|"
  | .caret => some "^"
  | .exclamation => some "!"
  | .tilde => some "~"
  | .ampersandAmpersand => some "&&"
  | .barBar => some "||"
  | .question => some "?"
  | .colon => some ":"
  | .colonColon => some "::"
  | .equals => some "="
  | .plusEquals => some "+="
  | .minusEquals => some "-="
  | .asteriskEquals => some "*="
  | .slashEquals => some "/="
  | .percentEquals => some "%="
  | .lessThanLessThanEquals => some "<<="
  | .greaterThanGreaterThanEquals => some ">>="
  | .greaterThanGreaterThanGreaterThanEquals => some ">>>="
  | .ampersandEquals => some "&="
  | .barEquals => some "|="
  | .caretEquals => some "^="
  | _ => none

/-- The text that every token of this kind has, if there is one. -/
def text? (k : Kind) : Option String := k.punctuationText?.or k.keywordText?

/-- The keyword a word spells. -/
def ofKeyword? : String → Option Kind
  | "break" => some .breakKeyword
  | "case" => some .caseKeyword
  | "catch" => some .catchKeyword
  | "const" => some .constKeyword
  | "continue" => some .continueKeyword
  | "default" => some .defaultKeyword
  | "delete" => some .deleteKeyword
  | "do" => some .doKeyword
  | "else" => some .elseKeyword
  | "false" => some .falseKeyword
  | "finally" => some .finallyKeyword
  | "for" => some .forKeyword
  | "function" => some .functionKeyword
  | "if" => some .ifKeyword
  | "in" => some .inKeyword
  | "instanceof" => some .instanceOfKeyword
  | "new" => some .newKeyword
  | "null" => some .nullKeyword
  | "return" => some .returnKeyword
  | "switch" => some .switchKeyword
  | "this" => some .thisKeyword
  | "throw" => some .throwKeyword
  | "true" => some .trueKeyword
  | "try" => some .tryKeyword
  | "typeof" => some .typeOfKeyword
  | "var" => some .varKeyword
  | "void" => some .voidKeyword
  | "while" => some .whileKeyword
  | "with" => some .withKeyword
  | "yield" => some .yieldKeyword
  | "each" => some .eachKeyword
  | "get" => some .getKeyword
  | "set" => some .setKeyword
  | "xml" => some .xmlKeyword
  | "namespace" => some .namespaceKeyword
  | _ => none

/-- How the kind is named in a message that asks for it: its text in quotes, if it has one. -/
def describe (k : Kind) : String :=
  match k.text? with
  | some text => s!"'{text}'"
  | none => if k = .identifier then "identifier" else k.name

/-- The token that stands for an operator whose node carries a tag of its own. -/
def operatorToken? : Kind → Option Kind
  | .postIncrement => some .plusPlus
  | .postDecrement => some .minusMinus
  | .unaryPlus => some .plus
  | .unaryMinus => some .minus
  | _ => none

end ScriptTree.Kind
