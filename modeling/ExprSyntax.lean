import ExprSyntax.Main
import ExprSyntax.Session
import ExprSyntax.Proofs.Parser.Acceptance
import ExprSyntax.Proofs.Parser.Reuse
import ExprSyntax.Proofs.Parser.SyntaxErrors
import ExprSyntax.Proofs.Source.Segmentation
import ExprSyntax.Proofs.Expr.RoundTrip
import ExprSyntax.Proofs.Command.Prompt
import ExprSyntax.Proofs.Session.History
import ExprSyntax.Proofs.Source.Continuation
import ExprSyntax.Proofs.Expr.MinusRoles
import ExprSyntax.Proofs.Grammar.Openings
import ExprSyntax.Proofs.Parser.NestingBound
import ExprSyntax.Proofs.Parser.StackLimit
import ExprSyntax.Proofs.Expr.Depth
import ExprSyntax.Proofs.Expr.PolishText
import ExprSyntax.Proofs.Source.ReportLines
import ExprSyntax.Proofs.Parser.Stopping
import ExprSyntax.Proofs.Expr.Evaluation
import ExprSyntax.Proofs.Source.Rescan
import ExprSyntax.Proofs.Source.Ending
import ExprSyntax.Proofs.Parser.Recovery
import ExprSyntax.Proofs.Source.Layout
import ExprSyntax.Proofs.Source.Calls
