import CallExpr.Eval.Meaning
import CallExpr.Session
import CallExpr.Source.Grammar
import CallExpr.Proofs.Innermost
import CallExpr.Proofs.Groups
import CallExpr.Proofs.Numbering
import CallExpr.Proofs.Placing
import CallExpr.Proofs.Passes
import CallExpr.Proofs.Derivations
import CallExpr.Proofs.Recognition
import CallExpr.Proofs.Reading
import CallExpr.Proofs.LinearForest
import CallExpr.Proofs.Scanning
import CallExpr.Proofs.Acceptance
import CallExpr.Proofs.Writing
import CallExpr.Proofs.RoundTrip
import CallExpr.Proofs.NestingLimit
import CallExpr.Proofs.OpaqueLiterals
import CallExpr.Proofs.Lexemes
import CallExpr.Proofs.Conservation
import CallExpr.Proofs.Blindness
import CallExpr.Proofs.Depth
import CallExpr.Proofs.Compositional
import CallExpr.Proofs.Vocabulary
import CallExpr.Proofs.Branches
import CallExpr.Proofs.Walk
import CallExpr.Proofs.Dispatch
import CallExpr.Proofs.Postorder
import CallExpr.Proofs.Rounds
import CallExpr.Proofs.PassCounts
import CallExpr.Proofs.Canonical
import CallExpr.Proofs.ErrorSources
import CallExpr.Proofs.Activations
import CallExpr.Proofs.Exactness
import CallExpr.Proofs.Collapsing
import CallExpr.Proofs.Stacking
import CallExpr.Proofs.Joining
import CallExpr.Proofs.Padding
import CallExpr.Proofs.Lossless
import CallExpr.Proofs.Layout
import CallExpr.Source.Peg
import CallExpr.Source.Span
import CallExpr.Proofs.Parsing
import CallExpr.Proofs.Rounding
import CallExpr.Proofs.Doubles
import CallExpr.Proofs.Comparing
import CallExpr.Proofs.Promotion
import CallExpr.Proofs.Combining
import CallExpr.Proofs.Dividing
import CallExpr.Proofs.Extending
import CallExpr.Proofs.Renaming
import CallExpr.Proofs.Words
import CallExpr.Proofs.Appending
import CallExpr.Proofs.Progress
import CallExpr.Proofs.Integers
import CallExpr.Proofs.Spans
