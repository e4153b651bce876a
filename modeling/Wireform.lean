import Wireform.App
import Wireform.Log.Format
import Wireform.Registry.Basic
import Wireform.Schema.Expr
import Wireform.Proofs.Calendar
import Wireform.Proofs.Double.Whole
import Wireform.Proofs.Double.Rounding
import Wireform.Proofs.DateTime.IsoText
import Wireform.Proofs.DateTime.Seconds
import Wireform.Proofs.Schema.Built
import Wireform.Proofs.Schema.Fields
import Wireform.Proofs.Schema.Conformance
import Wireform.Proofs.Schema.Loss
import Wireform.Proofs.Schema.Recovery
import Wireform.Proofs.Schema.RoundTrip
import Wireform.Proofs.Named
import Wireform.Proofs.Registry.Definition
import Wireform.Proofs.Registry.Build
import Wireform.Proofs.Registry.Resolve
import Wireform.Proofs.Registry.Load
import Wireform.Proofs.Registry.Expansion
import Wireform.Proofs.Registry.Order
import Wireform.Proofs.Depth
import Wireform.Proofs.Registry.Guard
import Wireform.Proofs.Schema.Depth
import Wireform.Proofs.Schema.Agreement
import Wireform.Proofs.Schema.Failure
import Wireform.Schema.Attempt
import Wireform.Proofs.Schema.Attempt
import Wireform.Proofs.Log.Configuration
import Wireform.Proofs.Schema.Plain
import Wireform.Registry.Attempt
import Wireform.Proofs.Registry.Attempt
import Wireform.Proofs.Registry.Refusal
import Wireform.Proofs.Registry.Failure
import Wireform.Proofs.Registry.Cycle
import Wireform.Schema.Dispatch
import Wireform.Proofs.Schema.Dispatch
import Wireform.Proofs.Document.Tree
import Wireform.Proofs.Nested
import Wireform.Proofs.Settings.Paths
import Wireform.Proofs.Settings.Name
import Wireform.Proofs.Document.Cells
import Wireform.Proofs.Settings.Override
import Wireform.Proofs.Calendar.Counted
import Wireform.Proofs.DateTime.Instant
import Wireform.Proofs.Registry.Fields
import Wireform.Proofs.Registry.Tour
import Wireform.Proofs.Registry.FirstFault
import Wireform.Proofs.Double.Rational
import Wireform.Proofs.Double.Nearest
import Wireform.Proofs.DateTime.Milliseconds
import Wireform.Proofs.Numeral.Run
import Wireform.Proofs.Numeral.Leading
import Wireform.Proofs.Double.Literal
import Wireform.Proofs.Double.Decimal
import Wireform.Proofs.Double.Reading
import Wireform.Proofs.Double.Shortest
import Wireform.Proofs.Double.Written
import Wireform.Proofs.Double.Text
import Wireform.Proofs.Double.Integer
import Wireform.Proofs.Double.Unique
import Wireform.Proofs.Json.Text
import Wireform.Proofs.Json.Reader
import Wireform.Proofs.Json.Number
import Wireform.Proofs.Log.JsonLines
import Wireform.Proofs.Schema.Checks
import Wireform.Proofs.Schema.Construction
import Wireform.Proofs.Value.Rendering
import Wireform.Proofs.Registry.Builder
import Wireform.Proofs.App
