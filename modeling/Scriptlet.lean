import Scriptlet.Text.Blank
import Scriptlet.Text.Bytes
import Scriptlet.Text.Line
import Scriptlet.Text.Literal
import Scriptlet.Text.Numeral
import Scriptlet.Text.Quoted
import Scriptlet.Text.Visible
import Scriptlet.Token.Basic
import Scriptlet.Token.Kind
import Scriptlet.Token.Stream
import Scriptlet.Lexing.Rule
import Scriptlet.Lexing.Piece
import Scriptlet.Lexing.Tokenize
import Scriptlet.Lexing.Scanner
import Scriptlet.Tree.Basic
import Scriptlet.Tree.Printer
import Scriptlet.Tree.Alike
import Scriptlet.Diagnostic.Basic
import Scriptlet.Diagnostic.Render
import Scriptlet.Parsing.Power
import Scriptlet.Parsing.State
import Scriptlet.Parsing.Reader
import Scriptlet.Parsing.Loop
import Scriptlet.Parsing.Parser
import Scriptlet.Parsing.Expression
import Scriptlet.Parsing.Statement
import Scriptlet.Parsing.Program
import Scriptlet.Proofs.Frame
import Scriptlet.Proofs.Recursion
import Scriptlet.Proofs.Grammar
import Scriptlet.Proofs.Outcome
import Scriptlet.Proofs.Reading
import Scriptlet.Proofs.Spelling
import Scriptlet.Proofs.Deriving
import Scriptlet.Proofs.Pieces
import Scriptlet.Proofs.Acceptance
import Scriptlet.Proofs.Canonical
import Scriptlet.Proofs.Words
import Scriptlet.Proofs.Reparsing
import Scriptlet.Proofs.Braces
import Scriptlet.Proofs.Tiling
import Scriptlet.Proofs.Seams
import Scriptlet.Proofs.SourceOrder
import Scriptlet.Proofs.Lockstep
import Scriptlet.Proofs.LockstepLayers
import Scriptlet.Proofs.Terminators
import Scriptlet.Proofs.Completion
import Scriptlet.Proofs.FirstFault
import Scriptlet.Proofs.PrintedForm
import Scriptlet.Proofs.Refusals
import Scriptlet.Proofs.Diagnosis
import Scriptlet.Proofs.Budget
import Scriptlet.Proofs.DiagnosticOrder
import Scriptlet.Proofs.Window
import Scriptlet.Proofs.Layout
import Scriptlet.Proofs.Levels
import Scriptlet.Proofs.Progress
import Scriptlet.Proofs.Slices
import Scriptlet.Proofs.Nesting
import Scriptlet.Proofs.OmittedTerminators
import Scriptlet.Proofs.MaximalMunch
import Scriptlet.Proofs.Relayout
import Scriptlet.Proofs.Literals
import Scriptlet.Proofs.LineLookup
import Scriptlet.Proofs.Reports
