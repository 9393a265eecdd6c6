import BinaryLambda.CommandLine.Options
import BinaryLambda.CommandLine.Run
import BinaryLambda.CommandLine.Usage
import BinaryLambda.Decimal.Binary64
import BinaryLambda.Decimal.Integer
import BinaryLambda.Decimal.Shortest
import BinaryLambda.Diagnostic
import BinaryLambda.Draft.Basic
import BinaryLambda.Draft.Operations
import BinaryLambda.Draft.Walk
import BinaryLambda.Failure
import BinaryLambda.IndexTerm.Basic
import BinaryLambda.IndexTerm.Code
import BinaryLambda.IndexTerm.Notation
import BinaryLambda.Main
import BinaryLambda.Paint
import BinaryLambda.Program
import BinaryLambda.Proofs.CommandLine.Modes
import BinaryLambda.Proofs.Diagnostic
import BinaryLambda.Proofs.Draft
import BinaryLambda.Proofs.IndexTerm.Code
import BinaryLambda.Proofs.IndexTerm.Confluence
import BinaryLambda.Proofs.IndexTerm.Notation
import BinaryLambda.Proofs.IndexTerm.Reduction
import BinaryLambda.Proofs.IndexTerm.Spelling
import BinaryLambda.Proofs.IndexTerm.Standardization
import BinaryLambda.Proofs.IndexTerm.Substitution
import BinaryLambda.Proofs.Outcome
import BinaryLambda.Proofs.Program
import BinaryLambda.Proofs.Program.Evaluation
import BinaryLambda.Proofs.Reducer
import BinaryLambda.Proofs.Reducer.History
import BinaryLambda.Proofs.Surface.Reading
import BinaryLambda.Proofs.Term.Alpha
import BinaryLambda.Proofs.Term.Environment
import BinaryLambda.Proofs.Term.FreshName
import BinaryLambda.Proofs.Term.Letters
import BinaryLambda.Proofs.Term.NameSupply
import BinaryLambda.Proofs.Term.Names
import BinaryLambda.Proofs.Term.Normalization
import BinaryLambda.Proofs.Term.Reading
import BinaryLambda.Proofs.Term.Registry
import BinaryLambda.Proofs.Term.Simulation
import BinaryLambda.Proofs.Term.Substitution
import BinaryLambda.Proofs.Text.Digit
import BinaryLambda.Proofs.Text.Placed
import BinaryLambda.Reducer
import BinaryLambda.Reporter
import BinaryLambda.Surface.Combinator
import BinaryLambda.Surface.Parser
import BinaryLambda.Surface.Token
import BinaryLambda.Term.Basic
import BinaryLambda.Term.Church
import BinaryLambda.Term.Parser
import BinaryLambda.Term.Printer
import BinaryLambda.Term.Reduction
import BinaryLambda.Term.Renaming
import BinaryLambda.Term.Substitution
import BinaryLambda.Text.Blank
import BinaryLambda.Text.Digit
import BinaryLambda.Text.Lines
import BinaryLambda.Text.Placed
import BinaryLambda.Text.Printable
import BinaryLambda.Text.Quoted
import BinaryLambda.Text.Slice
import BinaryLambda.Text.Template
import BinaryLambda.Text.Utf8
import BinaryLambda.Token
import BinaryLambda.Value
import BinaryLambda.Proofs.Surface.Grammar
import BinaryLambda.Proofs.Term.Arithmetic
import BinaryLambda.Proofs.Term.Predecessor
import BinaryLambda.Proofs.Surface.Arithmetic
import BinaryLambda.Proofs.CommandLine.Lines
import BinaryLambda.Proofs.Term.Places
import BinaryLambda.Proofs.Term.Mismatch
import BinaryLambda.Proofs.IndexTerm.PrefixCode
import BinaryLambda.Proofs.Surface.Cutting
import BinaryLambda.Proofs.Surface.Refusal
import BinaryLambda.Proofs.Term.Power
import BinaryLambda.Proofs.Term.Indexing
import BinaryLambda.Proofs.Term.Numeral
import BinaryLambda.Proofs.Underline
import BinaryLambda.Proofs.Reporter.Blocks
import BinaryLambda.Proofs.Surface.Spacing
