import Verve.Ty.Basic
import Verve.Text.Blank
import Verve.Text.Lines
import Verve.Fault
import Verve.Token.Basic
import Verve.Token.Scan
import Verve.Token.Lexeme
import Verve.Decimal.Shortest
import Verve.Text.CodePoint
import Verve.Text.Quoted
import Verve.Syntax.Node
import Verve.Decls
import Verve.Parse.Cursor
import Verve.Parse.Annotation
import Verve.Parse.Declaration
import Verve.Parse.Expression
import Verve.Parse.Program
import Verve.Scope
import Verve.Check.Simplify
import Verve.Check.Compat
import Verve.Check.Infer
import Verve.Main
import Verve.Proofs.Chase
import Verve.Proofs.Run
import Verve.Proofs.Placed
import Verve.Proofs.Frame
import Verve.Proofs.Dispatch
import Verve.Proofs.Rename
import Verve.Proofs.Relabel
import Verve.Proofs.RenameScopes
import Verve.Proofs.Translation
import Verve.Proofs.Lockstep
import Verve.Proofs.Siblings
import Verve.Proofs.Annotated
import Verve.Proofs.Limit
import Verve.Proofs.RenameCheck
import Verve.Proofs.AlphaRename
import Verve.Proofs.Munch
import Verve.Proofs.Progress
import Verve.Proofs.Fuel
import Verve.Proofs.Chains
import Verve.Proofs.Unfold
import Verve.Proofs.Unify
import Verve.Parse.Print
import Verve.Proofs.Layout
import Verve.Proofs.Forward
import Verve.Proofs.ReadPrinted
import Verve.Proofs.Acceptance
import Verve.Proofs.SimplifyRun
import Verve.Proofs.Settled
import Verve.Proofs.SettledKept
import Verve.Proofs.SimplifyTwice
import Verve.Proofs.Declarations
import Verve.Proofs.Builtins
import Verve.Proofs.Annotations
import Verve.Proofs.Reflexive
import Verve.Proofs.TypeText
import Verve.Proofs.CallClosing
import Verve.Proofs.ResolveWalk
import Verve.Proofs.LineLookup
import Verve.Proofs.EnumScan
import Verve.Proofs.NestedSpans
import Verve.Proofs.Written
import Verve.Proofs.ParamsKept
import Verve.Proofs.ReadProgram
import Verve.Proofs.SettledSteps
import Verve.Proofs.SettledRun
