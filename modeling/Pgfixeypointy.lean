import Pgfixeypointy.Library.Buffer
import Pgfixeypointy.Library.Digits
import Pgfixeypointy.Impl.Decimal
import Pgfixeypointy.Impl.Output
import Pgfixeypointy.Impl.Emission
import Pgfixeypointy.Impl.Layout
import Pgfixeypointy.Impl.Numeral
import Pgfixeypointy.Impl.Printing
import Pgfixeypointy.Impl.Narrowing
import Pgfixeypointy.Impl.Exactness
import Pgfixeypointy.Impl.Literal
import Pgfixeypointy.Impl.Assumptions
import Pgfixeypointy.Library.Rounding
import Pgfixeypointy.Impl.Arithmetic
import Pgfixeypointy.Library.LittleEndian
import Pgfixeypointy.Extension.Datum
import Pgfixeypointy.Extension.Scanner
import Pgfixeypointy.Extension.Functions
import Pgfixeypointy.Library.Expression
import Pgfixeypointy.Extension.Evaluation
import Pgfixeypointy.Extension.Comparison
import Pgfixeypointy.Extension.OperatorLaws
import Pgfixeypointy.Extension.Cast
import Pgfixeypointy.Extension.Storage
import Pgfixeypointy.Extension.Misreading
import Pgfixeypointy.Extension.Recast
import Pgfixeypointy.Library.Trace
import Pgfixeypointy.Extension.Reachability
import Pgfixeypointy.Library.Aggregate
import Pgfixeypointy.Extension.Aggregates
import Pgfixeypointy.Extension.TypeModifier
import Pgfixeypointy.Extension.Tokenisation
import Pgfixeypointy.Extension.Determinacy
import Pgfixeypointy.Library.Lockstep
import Pgfixeypointy.Impl.StackFree
import Pgfixeypointy.Impl.Lookup
import Pgfixeypointy.Impl.Misprint
import Pgfixeypointy.Extension.Session
import Pgfixeypointy.Extension.Isolation
import Pgfixeypointy.Extension.SessionFaults
import Pgfixeypointy.Extension.Insertion
import Pgfixeypointy.Extension.Restore
import Pgfixeypointy.Library.Ball
import Pgfixeypointy.Library.PartialSums
import Pgfixeypointy.Library.Rewriting
import Pgfixeypointy.Extension.Accuracy
import Pgfixeypointy.Extension.Drift
import Pgfixeypointy.Extension.SumOrders
import Pgfixeypointy.Extension.Planner
import Pgfixeypointy.Extension.Decision
import Pgfixeypointy.Extension.Ledger
import Pgfixeypointy.Extension.Grouping
import Pgfixeypointy.Extension.ExpressionSums
import Pgfixeypointy.Library.Horner
import Pgfixeypointy.Impl.Suffix
import Pgfixeypointy.Impl.SuffixLiteral
import Pgfixeypointy.Library.Corners
import Pgfixeypointy.Extension.Enclosure
import Pgfixeypointy.Extension.Denotation
