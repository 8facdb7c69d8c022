import ExprLang.Diagnostic.Basic
import ExprLang.Diagnostic.Report
import ExprLang.Grammar.Sentence
import ExprLang.Grammar.Surface
import ExprLang.Reading.Expression
import ExprLang.Reading.Journal
import ExprLang.Reading.Power
import ExprLang.Reading.Program
import ExprLang.Reading.Recursion
import ExprLang.Reading.State
import ExprLang.Reading.Statement
import ExprLang.Text.Blank
import ExprLang.Text.Decimal
import ExprLang.Text.Line
import ExprLang.Text.Position
import ExprLang.Text.Size
import ExprLang.Token.Basic
import ExprLang.Token.Cursor
import ExprLang.Token.Kind
import ExprLang.Token.Lexeme
import ExprLang.Token.Lexer
import ExprLang.Token.Shift
import ExprLang.Token.Stream
import ExprLang.Tree.Basic
import ExprLang.Tree.Holes
import ExprLang.Tree.Render
import ExprLang.Tree.Tokens
import ExprLang.Proofs.Reads
import ExprLang.Proofs.Turns
import ExprLang.Proofs.Balance
import ExprLang.Proofs.Phrases
import ExprLang.Proofs.Acceptance
import ExprLang.Token.Order
import ExprLang.Proofs.Separation
import ExprLang.Token.Junction
import ExprLang.Proofs.Mirror
import ExprLang.Proofs.Recovery
import ExprLang.Proofs.Ownership
import ExprLang.Token.Spelling
import ExprLang.Tree.Marks
import ExprLang.Proofs.Printing
import ExprLang.Proofs.RoundTrip
import ExprLang.Proofs.GroupGaps
import ExprLang.Proofs.Overflow
import ExprLang.Diagnostic.Fault
import ExprLang.Proofs.ErrorOrder
import ExprLang.Proofs.Openers
import ExprLang.Proofs.Composition
import ExprLang.Proofs.Layout
import ExprLang.Proofs.Segmentation
import ExprLang.Proofs.Steps
import ExprLang.Proofs.Trace
import ExprLang.Proofs.Window
import ExprLang.Proofs.Precedence
import ExprLang.Proofs.Truth
import ExprLang.Proofs.Rounds
import ExprLang.Proofs.Termination
import ExprLang.Proofs.Resumption
import ExprLang.Proofs.Agreement
import ExprLang.Proofs.Lines
import ExprLang.Proofs.Caret
import ExprLang.Proofs.Calls
import ExprLang.Proofs.Wrapping
