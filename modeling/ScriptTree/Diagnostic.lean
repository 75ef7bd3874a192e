import ScriptTree.Text.Range
import ScriptTree.Text.Search

/-!
Problems found in a source text. A `Message` is a numbered template with places for arguments; a
`Diagnostic` is a message with its arguments filled in and, where it is known, the span and line
it speaks of.
-/
namespace ScriptTree

inductive Category where
  | warning | error | message
  deriving DecidableEq, Repr

def Category.name : Category → String
  | .warning => "warning"
  | .error => "error"
  | .message => "message"

/-- A template. The argument of index `i` goes where the number `i` stands in braces. -/
structure Message where
  code : Nat
  category : Category
  template : String
  deriving DecidableEq, Repr

namespace Message

def invalidCharacter : Message := ⟨1001, .error, "Invalid character"⟩
def unterminatedString : Message := ⟨1002, .error, "Unterminated string literal"⟩
def unterminatedComment : Message := ⟨1003, .error, "'*/' expected"⟩
def unterminatedRegularExpression : Message :=
  ⟨1004, .error, "Unterminated regular expression literal"⟩
def unterminatedXml : Message := ⟨1005, .error, "Unterminated XML literal"⟩

/-- Takes the token found. -/
def unexpected : Message := ⟨1100, .error, "Unexpected \x7b0\x7d"⟩

/-- Takes the token found and what was expected in its place. -/
def mismatched : Message := ⟨1101, .error, "Mismatched input \x7b0\x7d, \x7b1\x7d expected"⟩

/-- Takes what was expected at the end of the input. -/
def expected : Message := ⟨1102, .error, "\x7b0\x7d expected"⟩

/-- Takes the token found and the set of what was expected in its place. -/
def mismatchedSet : Message :=
  ⟨1103, .error, "Mismatched input \x7b0\x7d expecting set \x7b1\x7d"⟩

/-- Takes the limit. -/
def tooDeep : Message := ⟨1104, .error, "Nesting exceeds \x7b0\x7d levels"⟩

/-- Takes the reason. -/
def buildFailed : Message := ⟨1200, .error, "Failed to build syntax tree: \x7b0\x7d"⟩

/-- The place of argument `i` in a template. -/
def placeholder (i : Nat) : String := "\x7b" ++ toString i ++ "\x7d"

/-- Fill in the arguments from index `i` on, one after the other: a placeholder that an argument
brings in is filled by the arguments after it. -/
def fillFrom (i : Nat) : List String → List Char → List Char
  | [], text => text
  | arg :: args, text => fillFrom (i + 1) args (replaceAll (placeholder i).toList arg.toList text)

/-- A template with its arguments filled in. -/
def fillTemplate (template : String) (args : List String) : String :=
  String.ofList (fillFrom 0 args template.toList)

def fill (m : Message) (args : List String) : String := fillTemplate m.template args

end Message

structure Diagnostic where
  span : Option Span
  /-- The line of the start of the span, counted from zero. -/
  line : Option Nat
  text : String
  code : Nat
  category : Category
  deriving DecidableEq, Repr

namespace Diagnostic

/-- A problem of the text as a whole. -/
def ofMessage (m : Message) (args : List String) : Diagnostic :=
  ⟨none, none, m.fill args, m.code, m.category⟩

/-- A problem at a given place. -/
def located (span : Span) (line : Nat) (m : Message) (args : List String) : Diagnostic :=
  ⟨some span, some line, m.fill args, m.code, m.category⟩

def isError (d : Diagnostic) : Bool := d.category == .error

/-- The start of the span, zero without one. -/
def start (d : Diagnostic) : Nat := (d.span.map Span.start).getD 0

/-- The end of the span, zero without one. -/
def stop (d : Diagnostic) : Nat := (d.span.map Span.stop).getD 0

/-- The place of the problem, the line counted from one. -/
def whereText (d : Diagnostic) : String :=
  match d.line, d.span with
  | some line, some span => s!"({line + 1}, {span.interval}): "
  | some line, none => s!"({line + 1}): "
  | none, _ => ""

/-- The diagnostic in one line. -/
def display (d : Diagnostic) : String :=
  s!"{d.whereText}{d.category.name} JS{d.code}: {d.text}"

end Diagnostic

/-- Diagnostics in the order in which they were found. -/
abbrev Diagnostics := Array Diagnostic

namespace Diagnostics

def errorCount (ds : Diagnostics) : Nat := ds.countP (·.isError)

def hasErrors (ds : Diagnostics) : Bool := ds.any (·.isError)

/-- Move everything to the end of `sink`. Gives what is left, which is nothing, and the new sink. -/
def drainInto (ds sink : Diagnostics) : Diagnostics × Diagnostics := (#[], sink ++ ds)

end Diagnostics

/-- A sink for the problems found in a text: what it holds, and how it takes one more. -/
structure Reporter (σ : Type) where
  state : σ
  take : σ → Diagnostic → σ

namespace Reporter
variable {σ : Type}

def report (r : Reporter σ) (d : Diagnostic) : Reporter σ := { r with state := r.take r.state d }

/-- Report one after the other. -/
def reportAll (r : Reporter σ) (ds : Diagnostics) : Reporter σ := ds.foldl report r

/-- The reporter that keeps all it is given. -/
def collecting : Reporter Diagnostics := ⟨#[], Array.push⟩

end Reporter
end ScriptTree
