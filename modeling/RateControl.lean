import RateControl.Scalar
import RateControl.Binary
import RateControl.Numeral.Integer
import RateControl.Numeral.Decimal
import RateControl.Numeral.Shortest
import RateControl.Numeral.Fixed
import RateControl.Picture
import RateControl.Settings
import RateControl.Validation
import RateControl.Fault
import RateControl.Event
import RateControl.Logged
import RateControl.Statistics.Record
import RateControl.Statistics.Line
import RateControl.Statistics.Log
import RateControl.WhiteSpace
import RateControl.Equation.Syntax
import RateControl.Equation.Parser
import RateControl.Equation.Meaning
import RateControl.Equation
import RateControl.Directive
import RateControl.DecoderBuffer
import RateControl.SizeModel
import RateControl.LambdaRange
import RateControl.Sums
import RateControl.History
import RateControl.State
import RateControl.Policy
import RateControl.Grant
import RateControl.Shaping
import RateControl.Masking
import RateControl.Frame
import RateControl.SinglePass
import RateControl.Plan.Blur
import RateControl.Plan.Trial
import RateControl.Plan.Search
import RateControl.Plan
import RateControl.Session
import RateControl.Session.Step
import RateControl.Proofs.Attempt
import RateControl.Proofs.Validation
import RateControl.Proofs.Exact
import RateControl.Proofs.ExactReading
import RateControl.Proofs.Decay
import RateControl.Proofs.SizeModel
import RateControl.Proofs.Sums
import RateControl.Proofs.Binary.Packing
import RateControl.Proofs.Binary.Rounding
import RateControl.Proofs.Binary.Operations
import RateControl.Proofs.Binary.Scalars
import RateControl.Proofs.Numeral.Lexeme
import RateControl.Proofs.Equation.Grammar
import RateControl.Proofs.Equation.Chain
import RateControl.Proofs.Equation.Language
import RateControl.Proofs.Session.Run
import RateControl.Proofs.Session.Decision
import RateControl.Proofs.Plan.Search
import RateControl.Proofs.Plan.Layout
import RateControl.Proofs.Plan.Trial
import RateControl.Proofs.Plan.Budget
import RateControl.Proofs.Blur.Window
import RateControl.Proofs.Plan.Stages
import RateControl.Proofs.Plan.Monotone
import RateControl.Proofs.Binary.Representable
import RateControl.Proofs.Plan.Factor
import RateControl.Proofs.Binary.Double
import RateControl.Proofs.Buffer.Whole
import RateControl.Proofs.Buffer.Bounds
import RateControl.Proofs.Binary.Nearest
import RateControl.Proofs.Numeral.Shortest
import RateControl.Proofs.Statistics.Form
import RateControl.Proofs.Statistics.Reader
import RateControl.Proofs.Statistics.Writer
import RateControl.Proofs.Session.DryRun
import RateControl.Proofs.Session.Independence
import RateControl.Proofs.Statistics.Reread
import RateControl.Proofs.Plan.Unplanned
import RateControl.Proofs.Session.FromText
import RateControl.Proofs.Session.SetUp
import RateControl.Proofs.Plan.Faults
import RateControl.Proofs.Buffer.Balance
import RateControl.Proofs.Plan.Affordable
import RateControl.Proofs.Session.Compensation
import RateControl.Proofs.History
import RateControl.Proofs.Plan.Restart
import RateControl.Proofs.Plan.Walk
import RateControl.Proofs.Shaping
import RateControl.Proofs.Blur
import RateControl.Proofs.Masking.Normalization
import RateControl.Proofs.Binary.Single
import RateControl.Proofs.Masking.Mirror
import RateControl.Proofs.Masking.Locality
import RateControl.Proofs.Session.Unplanned
import RateControl.Proofs.Session.Failure
import RateControl.Proofs.Session.Accounts
import RateControl.Proofs.Equation.Descent
import RateControl.Proofs.Equation.Termination
import RateControl.Proofs.Blur.Width
import RateControl.Proofs.Session.Averaging
