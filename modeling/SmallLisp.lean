import SmallLisp.Balance
import SmallLisp.Builtin
import SmallLisp.CommandLine
import SmallLisp.Console
import SmallLisp.Datum
import SmallLisp.Datum.Display
import SmallLisp.Datum.Outline
import SmallLisp.Datum.Reader
import SmallLisp.Decimal
import SmallLisp.Dialogue
import SmallLisp.Double.Nearest
import SmallLisp.Double.Rank
import SmallLisp.Double.Shortest
import SmallLisp.Environment
import SmallLisp.Evaluator
import SmallLisp.Interpreter
import SmallLisp.Kind
import SmallLisp.Layout.Piece
import SmallLisp.Layout.Pretty
import SmallLisp.Machine
import SmallLisp.Main
import SmallLisp.Program
import SmallLisp.Proofs.Balance
import SmallLisp.Proofs.Balance.Continuation
import SmallLisp.Proofs.Dialogue.Agreement
import SmallLisp.Proofs.Dictionary
import SmallLisp.Proofs.Double.Bits
import SmallLisp.Proofs.Double.Shortest
import SmallLisp.Proofs.Environment.Assignment
import SmallLisp.Proofs.Environment.Association
import SmallLisp.Proofs.Environment.Binding
import SmallLisp.Proofs.Evaluation.Abreast
import SmallLisp.Proofs.Evaluation.Copies
import SmallLisp.Proofs.Evaluation.Effects
import SmallLisp.Proofs.Evaluation.Fine
import SmallLisp.Proofs.Evaluation.Interning
import SmallLisp.Proofs.Evaluation.Lookup
import SmallLisp.Proofs.Evaluation.Plan
import SmallLisp.Proofs.Evaluation.Private
import SmallLisp.Proofs.Evaluation.Scene
import SmallLisp.Proofs.Evaluation.Seclusion
import SmallLisp.Proofs.Evaluation.Session
import SmallLisp.Proofs.Evaluation.Sides
import SmallLisp.Proofs.Evaluation.Symbols
import SmallLisp.Proofs.Evaluation.Twins
import SmallLisp.Proofs.Layout.Direct
import SmallLisp.Proofs.Layout.Lines
import SmallLisp.Proofs.Layout.Marks
import SmallLisp.Proofs.Layout.Measured
import SmallLisp.Proofs.Layout.Shape
import SmallLisp.Proofs.Layout.Spelling
import SmallLisp.Proofs.Layout.Wider
import SmallLisp.Proofs.Layout.Widths
import SmallLisp.Proofs.Reading.Appended
import SmallLisp.Proofs.Reading.Failure
import SmallLisp.Proofs.Reading.Grammar
import SmallLisp.Proofs.Reading.Leaves
import SmallLisp.Proofs.Reading.Loading
import SmallLisp.Proofs.Reading.Names
import SmallLisp.Proofs.Reading.Reread
import SmallLisp.Proofs.Reading.Scanned
import SmallLisp.Proofs.Reading.Trees
import SmallLisp.Proofs.Reading.Turns
import SmallLisp.Proofs.RoundTrip
import SmallLisp.Proofs.Store.Growth
import SmallLisp.Proofs.Store.Paths
import SmallLisp.Proofs.Store.Places
import SmallLisp.Proofs.Store.Walks
import SmallLisp.Proofs.Token.Division
import SmallLisp.Proofs.Token.Numeral
import SmallLisp.Proofs.Token.Quotes
import SmallLisp.Proofs.Token.Spacing
import SmallLisp.Proofs.Token.Spelling
import SmallLisp.Store
import SmallLisp.Store.View
import SmallLisp.Text.Blank
import SmallLisp.Text.Sorted
import SmallLisp.Token
import SmallLisp.Token.Lexer
import SmallLisp.Toolkit
import SmallLisp.Value
