import LispShell.CommandLine
import LispShell.Main
import LispShell.Number.Binary64.Text
import LispShell.Number.Integer
import LispShell.Number.Exact
import LispShell.Settings
import LispShell.Value.Arithmetic
import LispShell.Value.Equality
import LispShell.Value.List
import LispShell.Proofs.Restart
import LispShell.Proofs.Lexer
import LispShell.Proofs.Refill
import LispShell.Proofs.LookAhead
import LispShell.Proofs.Encoding
import LispShell.Proofs.WholeText
import LispShell.Proofs.Word
import LispShell.Proofs.PrintedForm
import LispShell.Proofs.FailedReads
import LispShell.Proofs.Operators
import LispShell.Proofs.Segments
import LispShell.Proofs.RetriedText
import LispShell.Proofs.CallCount
import LispShell.Proofs.UnretriedRead
import LispShell.Proofs.Session
import LispShell.Proofs.Equality
import LispShell.Proofs.Sharing
import LispShell.Proofs.Symmetry
import LispShell.Proofs.ExactGrammar
import LispShell.Proofs.Comments
import LispShell.Proofs.WrittenNumbers
import LispShell.Proofs.FinalBreak
import LispShell.Proofs.LineBreaks
import LispShell.Proofs.PhysicalLines
import LispShell.Proofs.Rescan
import LispShell.Proofs.Demand
import LispShell.Proofs.ExactArithmetic
import LispShell.Proofs.Comparison
import LispShell.Proofs.OrderedField
import LispShell.Proofs.LineNumbers
import LispShell.Proofs.References
import LispShell.Proofs.EndOfInput
import LispShell.Proofs.IntegralPart
import LispShell.Proofs.Numeric
import LispShell.Proofs.IntegerGrammar
import LispShell.Proofs.Remainder
import LispShell.Proofs.Readings
import LispShell.Proofs.Course
import LispShell.Proofs.Quotation
import LispShell.Proofs.LossyDecoding
import LispShell.Proofs.DelimitedLines
import LispShell.Proofs.TokenLine
import LispShell.Proofs.CommandLines
import LispShell.Proofs.Rounding
import LispShell.Proofs.ShortestDecimal
import LispShell.Proofs.WrittenFloats
import LispShell.Proofs.BufferedScanner
import LispShell.Proofs.BufferedBounds
import LispShell.Proofs.BufferedView
