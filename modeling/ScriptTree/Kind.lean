/-!
Kinds of tokens and of concrete tree nodes. An operator or keyword production is tagged with the
kind of its token; the rules at the end of the list tag productions that have no token of their
own. The order of the constructors groups related kinds, so that most classes are intervals.
-/
namespace ScriptTree

/-- The kind of a token or the rule of a concrete tree node. -/
inductive Kind where
  -- Outside the grammar: a character no token begins with, and the end of the input.
  | unknown | endOfFile
  -- Blank space, line ends and comments.
  | whiteSpace | eol | singleLineComment | multiLineComment
  -- Literals.
  | decimalLiteral | hexIntegerLiteral | octalIntegerLiteral | stringLiteral
  | regularExpressionLiteral | xmlFragment | xmlFragmentEnd | xmlAttribute
  -- Names.
  | identifier
  -- Punctuation.
  | openBrace | closeBrace | openParen | closeParen | openBracket | closeBracket | dot | dotDot
  | semicolon | comma | lessThan | greaterThan | lessThanEquals | greaterThanEquals | equalsEquals
  | exclamationEquals | equalsEqualsEquals | exclamationEqualsEquals | plus | minus | asterisk
  | slash | percent | plusPlus | minusMinus | lessThanLessThan | greaterThanGreaterThan
  | greaterThanGreaterThanGreaterThan | ampersand | bar | caret | exclamation | tilde
  | ampersandAmpersand | barBar | question | colon | colonColon
  -- Assignment operators.
  | equals | plusEquals | minusEquals | asteriskEquals | slashEquals | percentEquals
  | lessThanLessThanEquals | greaterThanGreaterThanEquals
  | greaterThanGreaterThanGreaterThanEquals | ampersandEquals | barEquals | caretEquals
  -- Reserved words.
  | breakKeyword | caseKeyword | catchKeyword | constKeyword | continueKeyword | defaultKeyword
  | deleteKeyword | doKeyword | elseKeyword | falseKeyword | finallyKeyword | forKeyword
  | functionKeyword | ifKeyword | inKeyword | instanceOfKeyword | newKeyword | nullKeyword
  | returnKeyword | switchKeyword | thisKeyword | throwKeyword | trueKeyword | tryKeyword
  | typeOfKeyword | varKeyword | voidKeyword | whileKeyword | withKeyword | yieldKeyword
  -- Words that are keywords in some places and names elsewhere.
  | eachKeyword | getKeyword | setKeyword | xmlKeyword | namespaceKeyword
  -- Rules.
  | script | block | emptyStatement | labelled | expr | paren | commaExpr | call | arguments
  | byField | byIndex | forStep | forIter | forEach | arrayLiteral | item | objectLiteral
  | propertyInit | postIncrement | postDecrement | unaryPlus | unaryMinus | xmlLiteral
  | defaultXmlNamespace
  deriving DecidableEq, Repr, Inhabited

namespace Kind

/-- The place of a kind in the list of kinds. -/
def number (k : Kind) : Nat := k.ctorIdx

/-- The name of a kind in messages. -/
def name : Kind → String
  | .unknown => "Unknown"
  | .endOfFile => "EndOfFileToken"
  | .whiteSpace => "WhiteSpace"
  | .eol => "Eol"
  | .singleLineComment => "SingleLineComment"
  | .multiLineComment => "MultiLineComment"
  | .decimalLiteral => "DecimalLiteral"
  | .hexIntegerLiteral => "HexIntegerLiteral"
  | .octalIntegerLiteral => "OctalIntegerLiteral"
  | .stringLiteral => "StringLiteral"
  | .regularExpressionLiteral => "RegularExpressionLiteral"
  | .xmlFragment => "XmlFragment"
  | .xmlFragmentEnd => "XmlFragmentEnd"
  | .xmlAttribute => "XmlAttribute"
  | .identifier => "Identifier"
  | .openBrace => "OpenBraceToken"
  | .closeBrace => "CloseBraceToken"
  | .openParen => "OpenParenToken"
  | .closeParen => "CloseParenToken"
  | .openBracket => "OpenBracketToken"
  | .closeBracket => "CloseBracketToken"
  | .dot => "DotToken"
  | .dotDot => "DotDotToken"
  | .semicolon => "SemicolonToken"
  | .comma => "CommaToken"
  | .lessThan => "LessThanToken"
  | .greaterThan => "GreaterThanToken"
  | .lessThanEquals => "LessThanEqualsToken"
  | .greaterThanEquals => "GreaterThanEqualsToken"
  | .equalsEquals => "EqualsEqualsToken"
  | .exclamationEquals => "ExclamationEqualsToken"
  | .equalsEqualsEquals => "EqualsEqualsEqualsToken"
  | .exclamationEqualsEquals => "ExclamationEqualsEqualsToken"
  | .plus => "PlusToken"
  | .minus => "MinusToken"
  | .asterisk => "AsteriskToken"
  | .slash => "SlashToken"
  | .percent => "PercentToken"
  | .plusPlus => "PlusPlusToken"
  | .minusMinus => "MinusMinusToken"
  | .lessThanLessThan => "LessThanLessThanToken"
  | .greaterThanGreaterThan => "GreaterThanGreaterThanToken"
  | .greaterThanGreaterThanGreaterThan => "GreaterThanGreaterThanGreaterThanToken"
  | .ampersand => "AmpersandToken"
  | .bar => "BarToken"
  | .caret => "CaretToken"
  | .exclamation => "ExclamationToken"
  | .tilde => "TildeToken"
  | .ampersandAmpersand => "AmpersandAmpersandToken"
  | .barBar => "BarBarToken"
  | .question => "QuestionToken"
  | .colon => "ColonToken"
  | .colonColon => "ColonColonToken"
  | .equals => "EqualsToken"
  | .plusEquals => "PlusEqualsToken"
  | .minusEquals => "MinusEqualsToken"
  | .asteriskEquals => "AsteriskEqualsToken"
  | .slashEquals => "SlashEqualsToken"
  | .percentEquals => "PercentEqualsToken"
  | .lessThanLessThanEquals => "LessThanLessThanEqualsToken"
  | .greaterThanGreaterThanEquals => "GreaterThanGreaterThanEqualsToken"
  | .greaterThanGreaterThanGreaterThanEquals => "GreaterThanGreaterThanGreaterThanEqualsToken"
  | .ampersandEquals => "AmpersandEqualsToken"
  | .barEquals => "BarEqualsToken"
  | .caretEquals => "CaretEqualsToken"
  | .breakKeyword => "BreakKeyword"
  | .caseKeyword => "CaseKeyword"
  | .catchKeyword => "CatchKeyword"
  | .constKeyword => "ConstKeyword"
  | .continueKeyword => "ContinueKeyword"
  | .defaultKeyword => "DefaultKeyword"
  | .deleteKeyword => "DeleteKeyword"
  | .doKeyword => "DoKeyword"
  | .elseKeyword => "ElseKeyword"
  | .falseKeyword => "FalseKeyword"
  | .finallyKeyword => "FinallyKeyword"
  | .forKeyword => "ForKeyword"
  | .functionKeyword => "FunctionKeyword"
  | .ifKeyword => "IfKeyword"
  | .inKeyword => "InKeyword"
  | .instanceOfKeyword => "InstanceOfKeyword"
  | .newKeyword => "NewKeyword"
  | .nullKeyword => "NullKeyword"
  | .returnKeyword => "ReturnKeyword"
  | .switchKeyword => "SwitchKeyword"
  | .thisKeyword => "ThisKeyword"
  | .throwKeyword => "ThrowKeyword"
  | .trueKeyword => "TrueKeyword"
  | .tryKeyword => "TryKeyword"
  | .typeOfKeyword => "TypeOfKeyword"
  | .varKeyword => "VarKeyword"
  | .voidKeyword => "VoidKeyword"
  | .whileKeyword => "WhileKeyword"
  | .withKeyword => "WithKeyword"
  | .yieldKeyword => "YieldKeyword"
  | .eachKeyword => "EachKeyword"
  | .getKeyword => "GetKeyword"
  | .setKeyword => "SetKeyword"
  | .xmlKeyword => "XmlKeyword"
  | .namespaceKeyword => "NamespaceKeyword"
  | .script => "Script"
  | .block => "Block"
  | .emptyStatement => "EmptyStatement"
  | .labelled => "Labelled"
  | .expr => "Expr"
  | .paren => "Paren"
  | .commaExpr => "CommaExpr"
  | .call => "Call"
  | .arguments => "Arguments"
  | .byField => "ByField"
  | .byIndex => "ByIndex"
  | .forStep => "ForStep"
  | .forIter => "ForIter"
  | .forEach => "ForEach"
  | .arrayLiteral => "ArrayLiteral"
  | .item => "Item"
  | .objectLiteral => "ObjectLiteral"
  | .propertyInit => "PropertyInit"
  | .postIncrement => "PostIncrement"
  | .postDecrement => "PostDecrement"
  | .unaryPlus => "UnaryPlus"
  | .unaryMinus => "UnaryMinus"
  | .xmlLiteral => "XmlLiteral"
  | .defaultXmlNamespace => "DefaultXmlNamespace"

/-- Every kind, in order. -/
def all : List Kind :=
  [.unknown, .endOfFile, .whiteSpace, .eol, .singleLineComment, .multiLineComment,
   .decimalLiteral, .hexIntegerLiteral, .octalIntegerLiteral, .stringLiteral,
   .regularExpressionLiteral, .xmlFragment, .xmlFragmentEnd, .xmlAttribute, .identifier,
   .openBrace, .closeBrace, .openParen, .closeParen, .openBracket, .closeBracket, .dot, .dotDot,
   .semicolon, .comma, .lessThan, .greaterThan, .lessThanEquals, .greaterThanEquals,
   .equalsEquals, .exclamationEquals, .equalsEqualsEquals, .exclamationEqualsEquals, .plus,
   .minus, .asterisk, .slash, .percent, .plusPlus, .minusMinus, .lessThanLessThan,
   .greaterThanGreaterThan, .greaterThanGreaterThanGreaterThan, .ampersand, .bar, .caret,
   .exclamation, .tilde, .ampersandAmpersand, .barBar, .question, .colon, .colonColon, .equals,
   .plusEquals, .minusEquals, .asteriskEquals, .slashEquals, .percentEquals,
   .lessThanLessThanEquals, .greaterThanGreaterThanEquals,
   .greaterThanGreaterThanGreaterThanEquals, .ampersandEquals, .barEquals, .caretEquals,
   .breakKeyword, .caseKeyword, .catchKeyword, .constKeyword, .continueKeyword, .defaultKeyword,
   .deleteKeyword, .doKeyword, .elseKeyword, .falseKeyword, .finallyKeyword, .forKeyword,
   .functionKeyword, .ifKeyword, .inKeyword, .instanceOfKeyword, .newKeyword, .nullKeyword,
   .returnKeyword, .switchKeyword, .thisKeyword, .throwKeyword, .trueKeyword, .tryKeyword,
   .typeOfKeyword, .varKeyword, .voidKeyword, .whileKeyword, .withKeyword, .yieldKeyword,
   .eachKeyword, .getKeyword, .setKeyword, .xmlKeyword, .namespaceKeyword, .script, .block,
   .emptyStatement, .labelled, .expr, .paren, .commaExpr, .call, .arguments, .byField, .byIndex,
   .forStep, .forIter, .forEach, .arrayLiteral, .item, .objectLiteral, .propertyInit,
   .postIncrement, .postDecrement, .unaryPlus, .unaryMinus, .xmlLiteral, .defaultXmlNamespace]

/-- The kind of a given name. -/
def ofName? (name : String) : Option Kind := all.find? (·.name == name)

/-- Whether `k` stands between `first` and `last` in the list of kinds. -/
def isBetween (k first last : Kind) : Bool :=
  first.number ≤ k.number && k.number ≤ last.number

/-- Blank space, line ends and comments: what the grammar does not see. -/
def isHidden (k : Kind) : Bool := k.isBetween .whiteSpace .multiLineComment

def isComment : Kind → Bool
  | .singleLineComment | .multiLineComment => true
  | _ => false

def isLiteral (k : Kind) : Bool := k.isBetween .decimalLiteral .xmlAttribute

def isNumericLiteral : Kind → Bool
  | .decimalLiteral | .hexIntegerLiteral | .octalIntegerLiteral => true
  | _ => false

def isAssignmentOperator (k : Kind) : Bool := k.isBetween .equals .caretEquals

/-- Keywords, reserved or not. -/
def isKeyword (k : Kind) : Bool := k.isBetween .breakKeyword .namespaceKeyword

/-- Keywords that also serve as names. -/
def isContextualKeyword (k : Kind) : Bool := k.isBetween .eachKeyword .namespaceKeyword

/-- Kinds of tokens, as opposed to rules. -/
def isToken (k : Kind) : Bool := k.number ≤ namespaceKeyword.number

/-- Whether an operand may end with a token of this kind, so that a `/` after it divides and a `<`
after it compares. -/
def endsOperand : Kind → Bool
  | .identifier | .decimalLiteral | .hexIntegerLiteral | .octalIntegerLiteral | .stringLiteral
  | .regularExpressionLiteral | .xmlFragmentEnd | .xmlAttribute | .closeParen | .closeBracket
  | .plusPlus | .minusMinus | .thisKeyword | .nullKeyword | .trueKeyword | .falseKeyword => true
  | k => k.isContextualKeyword

/-- Whether a token of this kind may stand where an identifier is wanted. -/
def isIdentifier (k : Kind) : Bool := k == .identifier || k.isContextualKeyword

/-- Whether a token of this kind may name a property in an object literal. -/
def isPropertyName (k : Kind) : Bool :=
  k == .identifier || k.isKeyword || k == .stringLiteral || k.isNumericLiteral

end Kind
end ScriptTree
