import DaiScript.Position
import DaiScript.Text.Blank
import DaiScript.Text.Quoted
import DaiScript.Number.Basic
import DaiScript.Number.Nearest
import DaiScript.Number.Shortest
import DaiScript.Number.Layout
import DaiScript.Token.Kind
import DaiScript.Token.Basic
import DaiScript.Token.Table
import DaiScript.Source
import DaiScript.Operator
import DaiScript.Tree
import DaiScript.Outcome
import DaiScript.Cursor
import DaiScript.Grammar.Reading
import DaiScript.Grammar.Expression
import DaiScript.Grammar.Statement
import DaiScript.Value.Basic
import DaiScript.Fault
import DaiScript.Value.Operation
import DaiScript.Scope
import DaiScript.Evaluation
import DaiScript.Sink
import DaiScript.Session
import DaiScript.Outline.Basic
import DaiScript.Outline.Tree
import DaiScript.Command.Files
import DaiScript.Command.Basic
import DaiScript.Command.Conversation
import DaiScript.Main
import DaiScript.Proofs.Phrase
import DaiScript.Proofs.Readings
import DaiScript.Proofs.ExpressionSound
import DaiScript.Proofs.Parsings
import DaiScript.Proofs.StatementSound
import DaiScript.Proofs.Recovery
import DaiScript.Proofs.ExpressionComplete
import DaiScript.Proofs.Printer
import DaiScript.Proofs.RoundTrip
import DaiScript.Proofs.Image
import DaiScript.Proofs.Spans
import DaiScript.Proofs.Tiling
import DaiScript.Proofs.Correspondence
import DaiScript.Proofs.Execution
import DaiScript.Proofs.Transport
import DaiScript.Proofs.Upkeep
import DaiScript.Proofs.ScopeDiscipline
import DaiScript.Proofs.Renaming
import DaiScript.Proofs.Origins
import DaiScript.Proofs.Blame
import DaiScript.Proofs.Lines
import DaiScript.Proofs.Tracking
import DaiScript.Proofs.StatementTracking
import DaiScript.Proofs.Sequel
import DaiScript.Proofs.Joining
import DaiScript.Proofs.Definedness
import DaiScript.Proofs.LoopControl
import DaiScript.Proofs.Erasure
import DaiScript.Proofs.Rescanning
import DaiScript.Proofs.Boundary
import DaiScript.Proofs.ScanFault
import DaiScript.Proofs.Keywords
import DaiScript.Proofs.Literals
import DaiScript.Proofs.Rounding
import DaiScript.Proofs.Numerals
import DaiScript.Proofs.PrintedNumbers
import DaiScript.Proofs.Ahead
import DaiScript.Proofs.Fence
import DaiScript.Proofs.Cascade
import DaiScript.Proofs.Confinement
import DaiScript.Proofs.FaultOrder
import DaiScript.Proofs.Progress
import DaiScript.Proofs.Columns
import DaiScript.Proofs.Untouched
import DaiScript.Proofs.Reserved
import DaiScript.Proofs.Commutation
import DaiScript.Proofs.Eagerness
import DaiScript.Proofs.Compound
import DaiScript.Proofs.LoopTest
import DaiScript.Proofs.EntryPhrase
import DaiScript.Proofs.BlankLines
import DaiScript.Proofs.Words
import DaiScript.Proofs.Sameness
import DaiScript.Proofs.Likeness
import DaiScript.Proofs.ScopeChanges
