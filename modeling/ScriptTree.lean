import ScriptTree.Text.Range
import ScriptTree.Text.LineMap
import ScriptTree.Text.CharClass
import ScriptTree.Text.IdentifierTable
import ScriptTree.Text.Search
import ScriptTree.Kind
import ScriptTree.Kind.Spelling
import ScriptTree.Precedence
import ScriptTree.Diagnostic
import ScriptTree.Token
import ScriptTree.Token.Scan
import ScriptTree.Token.Table
import ScriptTree.Concrete
import ScriptTree.Production.Program
import ScriptTree.NodeKind
import ScriptTree.Node
import ScriptTree.Node.Walk
import ScriptTree.Node.Locate
import ScriptTree.Script
import ScriptTree.Lowering.Script
import ScriptTree.Parse
import ScriptTree.Proofs.TextCut
import ScriptTree.Proofs.ProgramTotal
import ScriptTree.Proofs.NestedRanges
import ScriptTree.Proofs.TokenAccount
import ScriptTree.Proofs.CompleteNodes
import ScriptTree.Proofs.TokenPlaces
import ScriptTree.Proofs.CallAllowance
import ScriptTree.Proofs.RecoveredRanges
import ScriptTree.Proofs.ExpressionStrata
import ScriptTree.Proofs.OperatorPrinting
import ScriptTree.Proofs.BraceMatching
import ScriptTree.Proofs.TwinStatements
import ScriptTree.Proofs.InnermostNode
import ScriptTree.Proofs.BasicSteps
import ScriptTree.Proofs.FailureProtocol
import ScriptTree.Proofs.SourceSlices
import ScriptTree.Proofs.StatementEnds
import ScriptTree.Proofs.LevelCount
import ScriptTree.Proofs.SeparatedItems
import ScriptTree.Proofs.ShuffledTrees
import ScriptTree.Proofs.TokenBounds
import ScriptTree.Proofs.TokenLexemes
import ScriptTree.Proofs.LineBreakFlags
import ScriptTree.Proofs.LexicalReports
import ScriptTree.Proofs.DelimitedTokens
import ScriptTree.Proofs.NumericLiterals
import ScriptTree.Proofs.ReportPlaces
import ScriptTree.Proofs.PropertyNames
import ScriptTree.Proofs.RecursiveWalk
import ScriptTree.Proofs.LineMapping
import ScriptTree.Proofs.TemplateFilling
import ScriptTree.Proofs.ShownTokens
import ScriptTree.Proofs.PrefixTokens
import ScriptTree.Proofs.ScriptOrder
