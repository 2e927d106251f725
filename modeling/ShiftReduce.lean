import ShiftReduce.Automaton
import ShiftReduce.Automaton.Listing
import ShiftReduce.Automaton.StateIndex
import ShiftReduce.Command
import ShiftReduce.Command.Host
import ShiftReduce.Command.Options
import ShiftReduce.Drawing
import ShiftReduce.Engine
import ShiftReduce.Generation
import ShiftReduce.Generation.Listing
import ShiftReduce.Grammar
import ShiftReduce.Grammar.Listing
import ShiftReduce.Grammar.Source
import ShiftReduce.Item
import ShiftReduce.Lookahead
import ShiftReduce.Lookahead.Listing
import ShiftReduce.Main
import ShiftReduce.Missing
import ShiftReduce.Production
import ShiftReduce.Proofs.Automaton
import ShiftReduce.Proofs.Automaton.Collection
import ShiftReduce.Proofs.Automaton.Lookup
import ShiftReduce.Proofs.Automaton.Numbering
import ShiftReduce.Proofs.Closure
import ShiftReduce.Proofs.Closure.Worklist
import ShiftReduce.Proofs.Command
import ShiftReduce.Proofs.Command.Files
import ShiftReduce.Proofs.Command.Grouping
import ShiftReduce.Proofs.Command.Options
import ShiftReduce.Proofs.Command.Requests
import ShiftReduce.Proofs.Command.Steps
import ShiftReduce.Proofs.Completeness
import ShiftReduce.Proofs.Decision
import ShiftReduce.Proofs.Derivation
import ShiftReduce.Proofs.Drawing
import ShiftReduce.Proofs.Drawing.Reading
import ShiftReduce.Proofs.Drawing.Rows
import ShiftReduce.Proofs.Engine
import ShiftReduce.Proofs.Engine.Counter
import ShiftReduce.Proofs.Engine.Limit
import ShiftReduce.Proofs.Engine.Replay
import ShiftReduce.Proofs.Engine.Succession
import ShiftReduce.Proofs.Engine.Trace
import ShiftReduce.Proofs.Generation
import ShiftReduce.Proofs.Grammar
import ShiftReduce.Proofs.Grammar.Augmentation
import ShiftReduce.Proofs.Grammar.Format
import ShiftReduce.Proofs.Grammar.Printing
import ShiftReduce.Proofs.Grammar.Quoting
import ShiftReduce.Proofs.Grammar.Source
import ShiftReduce.Proofs.Listing
import ShiftReduce.Proofs.Lookahead
import ShiftReduce.Proofs.Lookahead.Exact
import ShiftReduce.Proofs.Renumbering
import ShiftReduce.Proofs.Renumbering.Generation
import ShiftReduce.Proofs.Request
import ShiftReduce.Proofs.Saturation
import ShiftReduce.Proofs.SententialForm
import ShiftReduce.Proofs.Soundness
import ShiftReduce.Proofs.StateIndex
import ShiftReduce.Proofs.Table.Cell
import ShiftReduce.Proofs.Table.Content
import ShiftReduce.Proofs.Table.Generated
import ShiftReduce.Proofs.Table.History
import ShiftReduce.Proofs.Table.Modes
import ShiftReduce.Proofs.Table.Report
import ShiftReduce.Proofs.Table.Resolution
import ShiftReduce.Proofs.Token
import ShiftReduce.Proofs.Token.Pieces
import ShiftReduce.Proofs.Tree
import ShiftReduce.Proofs.Tree.Forest
import ShiftReduce.Proofs.Tree.Traversal
import ShiftReduce.Proofs.ViablePrefix
import ShiftReduce.Request
import ShiftReduce.Saturation
import ShiftReduce.Stack
import ShiftReduce.Symbol
import ShiftReduce.Table
import ShiftReduce.Table.Action
import ShiftReduce.Table.Build
import ShiftReduce.Table.Listing
import ShiftReduce.Text
import ShiftReduce.Token
import ShiftReduce.Tree
