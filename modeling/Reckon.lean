import Reckon.Binary64.Basic
import Reckon.Binary64.Remainder
import Reckon.Binary64.Text
import Reckon.Binary64.Word
import Reckon.Builtin
import Reckon.CommandLine.Invocation
import Reckon.CommandLine.Options
import Reckon.CommandLine.Session
import Reckon.Engine.Assignment
import Reckon.Engine.Basic
import Reckon.Engine.Settings
import Reckon.Error
import Reckon.Expr.Basic
import Reckon.Expr.Code
import Reckon.Expr.Compilation
import Reckon.Expr.OnePass
import Reckon.Expr.Reading
import Reckon.Filter.Formula.Basic
import Reckon.Filter.Formula.Bytewise
import Reckon.Filter.Formula.Literal
import Reckon.Filter.Formula.Reading
import Reckon.Filter.Formula.Truth
import Reckon.Filter.OnePass
import Reckon.Filter.Pattern.Basic
import Reckon.Filter.Pattern.Cache
import Reckon.Filter.Pattern.Matching
import Reckon.Filter.Pattern.Search
import Reckon.Filter.RowFilter
import Reckon.Main
import Reckon.Operation
import Reckon.Outcome
import Reckon.Program.Basic
import Reckon.Program.Instruction
import Reckon.Program.Lemmas
import Reckon.Program.Listing
import Reckon.Program.Machine
import Reckon.Program.Run
import Reckon.Proofs.Binary64.Arithmetic
import Reckon.Proofs.Binary64.Bitwise
import Reckon.Proofs.Binary64.Encoding
import Reckon.Proofs.Binary64.LateDigits
import Reckon.Proofs.Binary64.Magnitude
import Reckon.Proofs.Binary64.Order
import Reckon.Proofs.Binary64.ShortestText
import Reckon.Proofs.Binary64.Value
import Reckon.Proofs.Builtin
import Reckon.Proofs.CommandLine.Dispatch
import Reckon.Proofs.CommandLine.Filter
import Reckon.Proofs.Dictionary
import Reckon.Proofs.Engine.Assignment
import Reckon.Proofs.Engine.History
import Reckon.Proofs.Engine.Independence
import Reckon.Proofs.Engine.Parameters
import Reckon.Proofs.Engine.Position
import Reckon.Proofs.Engine.Sequence
import Reckon.Proofs.Engine.Storage
import Reckon.Proofs.Expr.Acceptance
import Reckon.Proofs.Expr.Advance
import Reckon.Proofs.Expr.Allowance
import Reckon.Proofs.Expr.Capacity
import Reckon.Proofs.Expr.Closed
import Reckon.Proofs.Expr.Compilation
import Reckon.Proofs.Expr.Completeness
import Reckon.Proofs.Expr.Consumption
import Reckon.Proofs.Expr.Correspondence
import Reckon.Proofs.Expr.Cost
import Reckon.Proofs.Expr.Cut
import Reckon.Proofs.Expr.CutReading
import Reckon.Proofs.Expr.Emission
import Reckon.Proofs.Expr.FoldedPhrases
import Reckon.Proofs.Expr.Folding
import Reckon.Proofs.Expr.Grammar
import Reckon.Proofs.Expr.Headroom
import Reckon.Proofs.Expr.Installation
import Reckon.Proofs.Expr.Lexeme
import Reckon.Proofs.Expr.Loads
import Reckon.Proofs.Expr.Lockstep
import Reckon.Proofs.Expr.Meaning
import Reckon.Proofs.Expr.Mention
import Reckon.Proofs.Expr.MoreCapacity
import Reckon.Proofs.Expr.Nesting
import Reckon.Proofs.Expr.NormalForm
import Reckon.Proofs.Expr.OnePass
import Reckon.Proofs.Expr.PhraseCode
import Reckon.Proofs.Expr.Position
import Reckon.Proofs.Expr.Reading
import Reckon.Proofs.Expr.Rendering
import Reckon.Proofs.Expr.Resemblance
import Reckon.Proofs.Expr.Resolution
import Reckon.Proofs.Expr.Room
import Reckon.Proofs.Expr.Soundness
import Reckon.Proofs.Expr.Token
import Reckon.Proofs.Expr.Translation
import Reckon.Proofs.Expr.Unambiguous
import Reckon.Proofs.Expr.ValueIndependence
import Reckon.Proofs.Filter.Memory
import Reckon.Proofs.Filter.OnePass
import Reckon.Proofs.Filter.OtherFields
import Reckon.Proofs.Formula.Acceptance
import Reckon.Proofs.Formula.Bytewise
import Reckon.Proofs.Formula.Completeness
import Reckon.Proofs.Formula.Grammar
import Reckon.Proofs.Formula.Position
import Reckon.Proofs.Formula.Quoting
import Reckon.Proofs.Formula.Reading
import Reckon.Proofs.Formula.Soundness
import Reckon.Proofs.Operation
import Reckon.Proofs.Outcome
import Reckon.Proofs.Pattern.Notation
import Reckon.Proofs.Pattern.Search
import Reckon.Proofs.Program.Accounting
import Reckon.Proofs.Program.Correspondence
import Reckon.Proofs.Program.Depth
import Reckon.Proofs.Program.Folding
import Reckon.Proofs.Program.Forecast
import Reckon.Proofs.Program.Listing
import Reckon.Proofs.Program.Machine
import Reckon.Proofs.Program.Refinement
import Reckon.Proofs.Source.Bytewise
import Reckon.Proofs.Source.Calls
import Reckon.Proofs.Source.Climbing
import Reckon.Proofs.Source.Cursor
import Reckon.Proofs.Source.Decimal
import Reckon.Proofs.Source.Denotation
import Reckon.Proofs.Source.Digits
import Reckon.Proofs.Source.Hexadecimal
import Reckon.Proofs.Source.Literal
import Reckon.Proofs.Source.Numeral
import Reckon.Proofs.Source.Operator
import Reckon.Proofs.Source.OperatorTree
import Reckon.Proofs.Source.Position
import Reckon.Proofs.Source.Progress
import Reckon.Proofs.Source.Walk
import Reckon.Proofs.Symbol.Chain
import Reckon.Proofs.Symbol.Growth
import Reckon.Proofs.Symbol.Hash
import Reckon.Proofs.Symbol.Partition
import Reckon.Proofs.Symbol.Register
import Reckon.Proofs.Symbol.Table
import Reckon.Proofs.Text
import Reckon.Source.Bytewise
import Reckon.Source.Climbing
import Reckon.Source.Cursor
import Reckon.Source.Name
import Reckon.Source.Numeral
import Reckon.Source.Operator
import Reckon.Source.Place
import Reckon.Source.Precedence
import Reckon.Source.Progress
import Reckon.Symbol.Hash
import Reckon.Symbol.Table
import Reckon.Text.Space
import Reckon.Text.Split
