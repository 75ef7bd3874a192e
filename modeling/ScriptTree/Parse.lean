import ScriptTree.Lowering.Script
import ScriptTree.Production.Program
import ScriptTree.Text.IdentifierTable
import ScriptTree.Token.Scan

/-!
From source text to a script. Parsing always gives a script: problems are reported beside it, and if
no tree can be built the script has the length of the source and nothing else. What is said of it
holds in every alphabet; it runs in that of the identifier table.
-/
namespace ScriptTree

structure ParseOptions where
  /-- How many levels deep a node of the script may stand. -/
  maxDepth : Nat
  /-- Whether XML literals are read. -/
  xmlLiterals : Bool
  deriving DecidableEq, Repr

def ParseOptions.default : ParseOptions := ⟨512, true⟩

/-- Why a script could not be built. -/
inductive BuildError where
  | grammar (halt : Halt)
  | lowering (error : LoweringError)
  deriving DecidableEq, Repr

def BuildError.message : BuildError → String
  | .grammar halt => halt.message
  | .lowering error => error.message

/-- A script and the problems met on the way to it. -/
structure Parsed where
  script : Script
  diagnostics : Diagnostics

/-- The script of a token list, with the problems that the grammar reports. -/
def build (tokens : Array Token) (lines : LineMap) (maxDepth : Nat) :
    Except BuildError Script × Diagnostics :=
  let (tree, cursor) := Cursor.initial.program (.ofTokens tokens lines Input.defaultLimit)
  let script : Except BuildError Script :=
    match tree with
    | .error halt => .error (.grammar halt)
    | .ok root => (Script.ofConcrete tokens maxDepth (some root)).mapError .lowering
  (script, cursor.problems)

section
variable [Alphabet]

/-- Parse a script. -/
def parse (source : String) (options : ParseOptions) : Parsed :=
  let tokenized := tokenize source options.xmlLiterals
  let (script, problems) := build tokenized.tokens (.ofText source) options.maxDepth
  let reported := tokenized.diagnostics ++ problems
  match script with
  | .ok script => ⟨script, reported⟩
  | .error error =>
    ⟨.empty (Offsets.ofTokens tokenized.tokens).sourceLength,
      reported.push (.ofMessage .buildFailed [error.message])⟩

/-- Parse a script. If there is a reporter, it is given the problems as they are found. -/
def parseReporting {σ : Type} (source : String) (options : ParseOptions)
    (reporter : Option (Reporter σ)) : Script × Option (Reporter σ) :=
  let tokenized := tokenize source options.xmlLiterals
  let reporter := reporter.map (·.reportAll tokenized.diagnostics)
  let (script, problems) := build tokenized.tokens (.ofText source) options.maxDepth
  let reporter := reporter.map (·.reportAll problems)
  match script with
  | .ok script => (script, reporter)
  | .error error =>
    (.empty (Offsets.ofTokens tokenized.tokens).sourceLength,
      reporter.map (·.report (.ofMessage .buildFailed [error.message])))

end
end ScriptTree
