import SafeExpr.Json.Tree
import SafeExpr.Json.Write
import SafeExpr.Main
import SafeExpr.Proofs.Evaluation.Outcome
import SafeExpr.Proofs.Evaluation.Relation
import SafeExpr.Proofs.Evaluation.Failure
import SafeExpr.Proofs.Except
import SafeExpr.Proofs.Function.Binding
import SafeExpr.Proofs.Check.Checked
import SafeExpr.Proofs.Check.Completeness
import SafeExpr.Proofs.Check.Introspection
import SafeExpr.Proofs.Evaluation.Budget
import SafeExpr.Proofs.Grammar.Fuel
import SafeExpr.Proofs.Grammar.Source
import SafeExpr.Proofs.Grammar.Lookahead
import SafeExpr.Proofs.Number.Digits
import SafeExpr.Proofs.Text.Quoted
import SafeExpr.Proofs.Parse.Brackets
import SafeExpr.Proofs.Grammar.Token
import SafeExpr.Proofs.Grammar.Operand
import SafeExpr.Proofs.Grammar.Display
import SafeExpr.Proofs.Evaluation.Constant
import SafeExpr.Proofs.Parse.Spelled
import SafeExpr.Proofs.RoundTrip
import SafeExpr.Proofs.Library.WellFormed
import SafeExpr.Proofs.Evaluation.WellFormed
import SafeExpr.Proofs.Json.WellFormed
import SafeExpr.Proofs.Parse.Precedence
import SafeExpr.Proofs.WellFormed
import SafeExpr.Proofs.Spans
import SafeExpr.Proofs.Syntax.Bare
import SafeExpr.Proofs.Parse.Fits
import SafeExpr.Proofs.Parse.ReadBack
import SafeExpr.Proofs.Parse.Limit
import SafeExpr.Proofs.Reparse
import SafeExpr.Proofs.Parse.Size
import SafeExpr.Proofs.Depth
import SafeExpr.Proofs.Number.Exact
import SafeExpr.Proofs.Value.Equality
import SafeExpr.Proofs.Machine.Run
import SafeExpr.Proofs.Namespace.History
import SafeExpr.Proofs.Namespace.Build
import SafeExpr.Proofs.Evaluation.Integers
import SafeExpr.Proofs.Library.Power
import SafeExpr.Proofs.Json.Text
import SafeExpr.Proofs.Json.Scalar
import SafeExpr.Proofs.Json.RoundTrip
import SafeExpr.Proofs.Library.Rounding
import SafeExpr.Proofs.Library.Sorting
import SafeExpr.Proofs.Function.Arguments
import SafeExpr.Proofs.Function.Keywords
import SafeExpr.Proofs.Evaluation.Arity
import SafeExpr.Proofs.Evaluation.Sequences
import SafeExpr.Proofs.Library.Scalar
import SafeExpr.Proofs.Library.Kept
import SafeExpr.Proofs.Library.Capped
import SafeExpr.Proofs.Library.Range
import SafeExpr.Proofs.Library.Divisors
import SafeExpr.Proofs.Library.ItemText
import SafeExpr.Proofs.Evaluation.SetAlgebra
import SafeExpr.Proofs.Value.Construction
import SafeExpr.Proofs.Nesting
import SafeExpr.Proofs.Recursion
import SafeExpr.Proofs.Integers
import SafeExpr.Proofs.StringLiterals
import SafeExpr.Proofs.Evaluation.Unlimited
import SafeExpr.Proofs.Evaluation.Chain
import SafeExpr.Proofs.Names
import SafeExpr.Proofs.Library.FloatText
import SafeExpr.Proofs.Layout
import SafeExpr.Proofs.Check.Offences
import SafeExpr.Proofs.Check.SourceOrder
import SafeExpr.Proofs.Grouping
import SafeExpr.Proofs.Rendering
import SafeExpr.Proofs.Tightness
import SafeExpr.Proofs.Json.Names
import SafeExpr.Proofs.Report.Label
import SafeExpr.Proofs.CommandLine.Variables
