import Formula.Event
import Formula.Main
import Formula.Proofs.Expr.Evaluation
import Formula.Proofs.Expr.Leaves
import Formula.Proofs.Expr.Postorder
import Formula.Proofs.Expr.Unambiguous
import Formula.Proofs.Number.Arithmetic
import Formula.Proofs.Parse.Acceptance
import Formula.Proofs.Parse.Alternation
import Formula.Proofs.Parse.Brackets
import Formula.Proofs.Parse.Conservation
import Formula.Proofs.Parse.ConstantText
import Formula.Proofs.Parse.Faults
import Formula.Proofs.Parse.Grouping
import Formula.Proofs.Parse.LetterCase
import Formula.Proofs.Parse.Listing
import Formula.Proofs.Parse.Location
import Formula.Proofs.Parse.Outline
import Formula.Proofs.Parse.Parentheses
import Formula.Proofs.Parse.RoundTrip
import Formula.Proofs.Parse.Waiting
import Formula.Proofs.Reduction.Agreement
import Formula.Proofs.Reduction.Exactness
import Formula.Proofs.Reduction.Relabelling
import Formula.Proofs.Simplify.Canonical
import Formula.Proofs.Simplify.Change
import Formula.Proofs.Simplify.Constants
import Formula.Proofs.Simplify.FixedPoint
import Formula.Proofs.Simplify.Growth
import Formula.Proofs.Simplify.Limits
import Formula.Proofs.Simplify.Renaming
import Formula.Proofs.Simplify.Termination
import Formula.Proofs.Simplify.Trace
import Formula.Proofs.Simplify.Value
import Formula.Proofs.Token.Classification
import Formula.Proofs.Token.LetterCase
import Formula.Proofs.Token.LongestMatch
import Formula.Proofs.Token.Seams
import Formula.Proofs.Token.Separation
import Formula.Proofs.Token.Tiling
