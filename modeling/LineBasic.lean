import LineBasic.Arena.Basic
import LineBasic.Arena.Layout
import LineBasic.Batch
import LineBasic.Command.Arguments
import LineBasic.Command.Directory
import LineBasic.Command.Run
import LineBasic.Grammar.Parser
import LineBasic.Grammar.Program
import LineBasic.Grammar.SyntaxError
import LineBasic.Grammar.Tree
import LineBasic.Machine.Arithmetic
import LineBasic.Machine.Console
import LineBasic.Machine.Error
import LineBasic.Machine.Evaluate
import LineBasic.Machine.Generator
import LineBasic.Machine.Image
import LineBasic.Machine.Input
import LineBasic.Machine.State
import LineBasic.Machine.Step
import LineBasic.Machine.Value
import LineBasic.Main
import LineBasic.Program.Basic
import LineBasic.Program.Listing
import LineBasic.Program.Report
import LineBasic.Program.Table
import LineBasic.Proofs.Arena.Forest
import LineBasic.Proofs.Arena.Layout
import LineBasic.Proofs.Arena.Placement
import LineBasic.Proofs.Arena.Regular
import LineBasic.Proofs.Arena.Shown
import LineBasic.Proofs.Grammar.Acceptance
import LineBasic.Proofs.Grammar.Expression
import LineBasic.Proofs.Grammar.Reads
import LineBasic.Proofs.Grammar.Spelling
import LineBasic.Proofs.Grammar.Statement
import LineBasic.Proofs.Machine.Evaluation
import LineBasic.Proofs.Machine.Frame
import LineBasic.Proofs.Machine.Halts
import LineBasic.Proofs.Machine.Mirrors
import LineBasic.Proofs.Machine.Refinement
import LineBasic.Proofs.Machine.Safety
import LineBasic.Proofs.Machine.Statements
import LineBasic.Proofs.Machine.Steps
import LineBasic.Proofs.Machine.Structural
import LineBasic.Proofs.Machine.Subroutines
import LineBasic.Proofs.Machine.WellFormed
import LineBasic.Proofs.Program.Accessors
import LineBasic.Proofs.Program.Meaning
import LineBasic.Proofs.Program.Parsed
import LineBasic.Proofs.Program.ReadBack
import LineBasic.Proofs.Program.Rendering
import LineBasic.Proofs.Program.Words
import LineBasic.Proofs.Token.Scanned
import LineBasic.Session
import LineBasic.Text.CharClass
import LineBasic.Text.Csv
import LineBasic.Text.Decimal
import LineBasic.Text.DecimalDigit
import LineBasic.Text.Hex
import LineBasic.Text.Printable
import LineBasic.Text.Quoted
import LineBasic.Text.Utf8
import LineBasic.Token.Mark
import LineBasic.Token.Scan
import LineBasic.Token.Tag
import LineBasic.Proofs.Arena.Postorder
import LineBasic.Proofs.Machine.Invariant
import LineBasic.Proofs.Grammar.Lookahead
import LineBasic.Proofs.Grammar.Prediction
import LineBasic.Proofs.Grammar.Complaint
import LineBasic.Proofs.Grammar.FirstError
import LineBasic.Proofs.Program.Spacing
import LineBasic.Proofs.Machine.Wording
import LineBasic.Proofs.Machine.Alike
import LineBasic.Proofs.Machine.Random
import LineBasic.Proofs.Grammar.Ending
import LineBasic.Proofs.Token.Numerals
import LineBasic.Proofs.Machine.Output
import LineBasic.Proofs.Batch.Loading
import LineBasic.Proofs.Batch.Runs
import LineBasic.Proofs.Command.Directory
import LineBasic.Proofs.Command.Saving
import LineBasic.Proofs.Program.Parts
import LineBasic.Proofs.Machine.Twister
import LineBasic.Proofs.Machine.Exact
import LineBasic.Proofs.Machine.Answers
import LineBasic.Proofs.Machine.Failure
import LineBasic.Grammar.Recorder
import LineBasic.Proofs.Token.Longest
import LineBasic.Proofs.Token.Tiling
import LineBasic.Proofs.Grammar.Recorded
import LineBasic.Proofs.Arena.Flattened
import LineBasic.Proofs.Arena.Tidied
import LineBasic.Proofs.Arena.Respelled
import LineBasic.Proofs.Program.Lines
import LineBasic.Proofs.Machine.Jumps
import LineBasic.Proofs.Token.Lines
import LineBasic.Proofs.Grammar.Translation
import LineBasic.Proofs.Arena.Joined
import LineBasic.Proofs.Machine.Attempts
import LineBasic.Proofs.Batch.Writes
import LineBasic.Proofs.Token.Marked
import LineBasic.Proofs.Machine.Division
import LineBasic.Proofs.Program.Literals
import LineBasic.Proofs.Token.Renamed
import LineBasic.Proofs.Machine.Renamed
import LineBasic.Proofs.Text.Csv
import LineBasic.Proofs.Program.Table
