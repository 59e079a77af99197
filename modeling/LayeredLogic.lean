import LayeredLogic.Formula.Expand
import LayeredLogic.Formula.Fragment
import LayeredLogic.Formula.Lookahead
import LayeredLogic.Formula.Modal
import LayeredLogic.Formula.NormalForm
import LayeredLogic.Formula.Text
import LayeredLogic.Formula.Traversal
import LayeredLogic.Formula.Walk
import LayeredLogic.Grammar.Report
import LayeredLogic.Log
import LayeredLogic.Proofs.Meaning
import LayeredLogic.Proofs.Assembly
import LayeredLogic.Proofs.Built
import LayeredLogic.Proofs.Reader
import LayeredLogic.Proofs.Lexeme
import LayeredLogic.Proofs.Grammar
import LayeredLogic.Proofs.Operand
import LayeredLogic.Proofs.RoundTrip
import LayeredLogic.Proofs.Scan
import LayeredLogic.Proofs.BaseNesting
import LayeredLogic.Proofs.NestingLimit
import LayeredLogic.Proofs.Derivation
import LayeredLogic.Proofs.BaseGrammar
import LayeredLogic.Proofs.Grammatical
import LayeredLogic.Proofs.Written
import LayeredLogic.Proofs.FirstFailure
import LayeredLogic.Proofs.Reread
import LayeredLogic.Proofs.TextMarks
import LayeredLogic.Proofs.TextNesting
import LayeredLogic.Proofs.Fragment
import LayeredLogic.Proofs.NormalForm
import LayeredLogic.Proofs.Extension
import LayeredLogic.Proofs.Precedence
import LayeredLogic.Proofs.Distribution
import LayeredLogic.Proofs.Horizon
import LayeredLogic.Proofs.Rewriting
import LayeredLogic.Proofs.Assembled
import LayeredLogic.Proofs.TreeMeaning
import LayeredLogic.Proofs.FirstFault
import LayeredLogic.Proofs.Occurrences
import LayeredLogic.Proofs.QuotedName
import LayeredLogic.Proofs.Grouping
import LayeredLogic.Proofs.SmallestLayer
import LayeredLogic.Proofs.Walk
import LayeredLogic.Proofs.Traversal
import LayeredLogic.Proofs.Depth
import LayeredLogic.Proofs.TableExtension
import LayeredLogic.Proofs.JoinedNesting
import LayeredLogic.Proofs.OperandNesting
import LayeredLogic.Proofs.Positions
import LayeredLogic.Proofs.Payload
import LayeredLogic.Proofs.Calls
import LayeredLogic.Proofs.WrittenBounds
