import Kotoba.Builtin
import Kotoba.Clause
import Kotoba.Command.Arguments
import Kotoba.Command.Folder
import Kotoba.Command.Level
import Kotoba.Command.Session
import Kotoba.Command.Usage
import Kotoba.Context
import Kotoba.Cursor
import Kotoba.Enclosure
import Kotoba.Fault
import Kotoba.Interpreter
import Kotoba.Keyword
import Kotoba.Literal
import Kotoba.Main
import Kotoba.Number.Decimal
import Kotoba.Number.Double
import Kotoba.Number.Order
import Kotoba.Pattern
import Kotoba.Procedure
import Kotoba.Proofs.Execution
import Kotoba.Proofs.Faults
import Kotoba.Proofs.Frame
import Kotoba.Proofs.Lines
import Kotoba.Proofs.Relocation
import Kotoba.Proofs.Sequencing
import Kotoba.Proofs.Shift
import Kotoba.Proofs.Termination
import Kotoba.Proofs.Tokenize
import Kotoba.Setting
import Kotoba.Statement
import Kotoba.Text.Decimal
import Kotoba.Text.Digit
import Kotoba.Text.Escaped
import Kotoba.Text.Hidden
import Kotoba.Text.Normalize
import Kotoba.Text.Quoted
import Kotoba.Text.Search
import Kotoba.Text.Utf8
import Kotoba.Token
import Kotoba.Value.Basic
import Kotoba.Value.Bindings
import Kotoba.Value.Format
import Kotoba.Value.Order
import Kotoba.Proofs.Excerpt
import Kotoba.Proofs.Positions
import Kotoba.Proofs.Comparison
import Kotoba.Proofs.Independence
import Kotoba.Proofs.Origin
import Kotoba.Proofs.Fragments
import Kotoba.Proofs.Blocks
import Kotoba.Proofs.Enclosures
import Kotoba.Proofs.Journal
import Kotoba.Proofs.Masking
import Kotoba.Proofs.Quotations
import Kotoba.Proofs.Sentences
import Kotoba.Proofs.Conditionals
import Kotoba.Proofs.Cursors
import Kotoba.Proofs.Names
import Kotoba.Proofs.Counts
import Kotoba.Proofs.Outcomes
import Kotoba.Proofs.Repetitions
import Kotoba.Proofs.Literals
import Kotoba.Proofs.Resolution
import Kotoba.Proofs.Pieces
import Kotoba.Proofs.Arguments
import Kotoba.Proofs.Phrases
import Kotoba.Proofs.ParticleOrder
import Kotoba.Proofs.Slices
import Kotoba.Proofs.Captures
import Kotoba.Proofs.Partition
import Kotoba.Proofs.WordOrder
import Kotoba.Proofs.ClosingMarks
import Kotoba.Proofs.Numerals
import Kotoba.Proofs.Ordering
import Kotoba.Proofs.Commands
import Kotoba.Proofs.Closedness
import Kotoba.Proofs.Unterminated
