import EvaluatorGen.Binary64.Basic
import EvaluatorGen.Binary64.Rounding
import EvaluatorGen.CommandLine.Arguments
import EvaluatorGen.CommandLine.FileTree
import EvaluatorGen.CommandLine.Run
import EvaluatorGen.Graph.Basic
import EvaluatorGen.Graph.Document
import EvaluatorGen.Header.Basic
import EvaluatorGen.Header.Code
import EvaluatorGen.Header.Members
import EvaluatorGen.Header.Routines
import EvaluatorGen.Identifier
import EvaluatorGen.Json.Decoder
import EvaluatorGen.Json.Lexeme
import EvaluatorGen.Json.Numeral
import EvaluatorGen.Json.Quoted
import EvaluatorGen.Json.Reader
import EvaluatorGen.Json.Units
import EvaluatorGen.Json.Value
import EvaluatorGen.Json.Writer
import EvaluatorGen.Lowering.Error
import EvaluatorGen.Lowering.Fragment
import EvaluatorGen.Lowering.Operation
import EvaluatorGen.Lowering.Shape
import EvaluatorGen.Lowering.Walk
import EvaluatorGen.Main
import EvaluatorGen.Overflow
import EvaluatorGen.Plan.Basic
import EvaluatorGen.Text.Blank
import EvaluatorGen.Text.Block
import EvaluatorGen.Text.Divide
import EvaluatorGen.Text.Literal
import EvaluatorGen.Text.Utf8
import EvaluatorGen.Weights.Basic
import EvaluatorGen.Weights.Text
import EvaluatorGen.Proofs.Lowering.Contribution
import EvaluatorGen.Proofs.Lowering.Acceptable
import EvaluatorGen.Proofs.Lowering.Rules
import EvaluatorGen.Proofs.Lowering.Walk
import EvaluatorGen.Proofs.Acceptance
import EvaluatorGen.Proofs.Signature
import EvaluatorGen.Proofs.Identifiers
import EvaluatorGen.Proofs.Semantics
import EvaluatorGen.Proofs.Meaning
import EvaluatorGen.Proofs.Evaluator.Routines
import EvaluatorGen.Proofs.Evaluator.Step
import EvaluatorGen.Proofs.Evaluator.Recurrence
import EvaluatorGen.Proofs.Lowering.Culprit
import EvaluatorGen.Proofs.Weights.Store
import EvaluatorGen.Proofs.Leaves
import EvaluatorGen.Proofs.Consumers
import EvaluatorGen.Proofs.Reordering
import EvaluatorGen.Proofs.Text.Layout
import EvaluatorGen.Proofs.Text.Literal
import EvaluatorGen.Proofs.Text.Line
import EvaluatorGen.Proofs.Header.Lines
import EvaluatorGen.Proofs.Header.Reading
import EvaluatorGen.Proofs.Header.Loader
import EvaluatorGen.Proofs.Bindings
import EvaluatorGen.Proofs.SharedStages
import EvaluatorGen.Proofs.Declarations
import EvaluatorGen.Proofs.Calls
import EvaluatorGen.Proofs.Feedback
import EvaluatorGen.Proofs.Binary64.Magnitude
import EvaluatorGen.Proofs.Binary64.Nearest
import EvaluatorGen.Proofs.Binary64.Decimal
import EvaluatorGen.Proofs.Json.Strings
import EvaluatorGen.Proofs.Json.Numbers
import EvaluatorGen.Proofs.Json.Reading
import EvaluatorGen.Proofs.Text.Utf8
import EvaluatorGen.Proofs.Weights.Writing
import EvaluatorGen.Proofs.Weights.RoundTrip
import EvaluatorGen.Proofs.Pairing
import EvaluatorGen.Proofs.Text.Tokens
import EvaluatorGen.Proofs.Header.Histories
import EvaluatorGen.Proofs.Header.Sizes
import EvaluatorGen.Proofs.Header.Statements
import EvaluatorGen.Proofs.Weights.Failing
import EvaluatorGen.Proofs.Lowering.Indexed
import EvaluatorGen.Proofs.AbruptEnds
import EvaluatorGen.Proofs.CommandLine.Arguments
import EvaluatorGen.Proofs.CommandLine.FileTree
import EvaluatorGen.Proofs.CommandLine.Effects
import EvaluatorGen.Proofs.Json.Writing
import EvaluatorGen.Proofs.Text.Nesting
import EvaluatorGen.Proofs.Erasure
import EvaluatorGen.Proofs.Weights.Canonical
import EvaluatorGen.Proofs.Document
import EvaluatorGen.Proofs.Edges
