import TraceLang.Json
import TraceLang.Suggest
import TraceLang.Syntax.Parser
import TraceLang.Syntax.Tree
import TraceLang.Heap.Basic
import TraceLang.Heap.Text
import TraceLang.Heap.Equality
import TraceLang.Heap.Copy
import TraceLang.Heap.Snapshot
import TraceLang.Scopes
import TraceLang.Context
import TraceLang.Fault
import TraceLang.Tracer
import TraceLang.Settings
import TraceLang.Machine.Basic
import TraceLang.Machine.Action
import TraceLang.Machine.Operators
import TraceLang.Machine.Engine
import TraceLang.Machine.Eval
import TraceLang.Machine.Execute
import TraceLang.Machine.Call
import TraceLang.Machine.Builtins
import TraceLang.Machine.Probes
import TraceLang.Settings.Reader
import TraceLang.Shell.Interactive
import TraceLang.Shell.Command
import TraceLang.Main
import TraceLang.Proofs.Syntax.Program
import TraceLang.Proofs.Syntax.Reading
import TraceLang.Proofs.Syntax.Pruning
import TraceLang.Proofs.Syntax.Bare
import TraceLang.Proofs.Syntax.Grammar
import TraceLang.Proofs.Syntax.Acceptance
import TraceLang.Proofs.Syntax.Recognition.Expressions
import TraceLang.Proofs.Syntax.Recognition.Statements
import TraceLang.Proofs.Syntax.Derivation
import TraceLang.Proofs.Scopes
import TraceLang.Proofs.Action
import TraceLang.Proofs.Effect
import TraceLang.Proofs.Regime
import TraceLang.Proofs.Heap
import TraceLang.Proofs.Stacks
import TraceLang.Proofs.Control
import TraceLang.Proofs.Sessions
import TraceLang.Proofs.Returns
import TraceLang.Proofs.Steps
import TraceLang.Proofs.Tracing
import TraceLang.Proofs.Coupling.Scopes
import TraceLang.Proofs.Coupling.Basic
import TraceLang.Proofs.Coupling.Expressions
import TraceLang.Proofs.Coupling.Instructions
import TraceLang.Proofs.Coupling.Diagonal
import TraceLang.Proofs.Pairing.Basic
import TraceLang.Proofs.Pairing.Views
import TraceLang.Proofs.Pairing.Copy
import TraceLang.Proofs.Calls
import TraceLang.Proofs.Observing
import TraceLang.Proofs.Pace
import TraceLang.Proofs.Twins
import TraceLang.Proofs.Chronology
import TraceLang.Proofs.Echo
import TraceLang.Proofs.Grounding
import TraceLang.Proofs.Settling
import TraceLang.Proofs.Foresight
import TraceLang.Proofs.Histories
import TraceLang.Proofs.Supply
import TraceLang.Proofs.Marking
import TraceLang.Proofs.Redeclaring
import TraceLang.Proofs.Ownership
import TraceLang.Proofs.Sealing
import TraceLang.Proofs.Accord
import TraceLang.Proofs.CallDepth
import TraceLang.Proofs.Halting
import TraceLang.Proofs.Syntax.Lexing
import TraceLang.Proofs.Syntax.Parts
import TraceLang.Proofs.Syntax.Spans
import TraceLang.Proofs.Syntax.Rendering
import TraceLang.Proofs.Syntax.Legibility
import TraceLang.Proofs.Syntax.ReadingBack
import TraceLang.Proofs.Kinship.Veils
import TraceLang.Proofs.Kinship.Basic
import TraceLang.Proofs.Kinship.Programs
import TraceLang.Proofs.Unread
import TraceLang.Proofs.Hosts
import TraceLang.Proofs.Decoding
import TraceLang.Proofs.Nesting.Lexical
import TraceLang.Proofs.Nesting.Programs
import TraceLang.Proofs.Syntax.Partition
import TraceLang.Proofs.Activations
import TraceLang.Proofs.Backtraces
import TraceLang.Proofs.Renewal
import TraceLang.Proofs.Bisimilarity
import TraceLang.Proofs.Detachment
import TraceLang.Proofs.Places
import TraceLang.Proofs.Exactness
import TraceLang.Proofs.Unfolding
import TraceLang.Proofs.Literals
import TraceLang.Proofs.Counting
import TraceLang.Proofs.Failures
import TraceLang.Proofs.Syntax.Levels
import TraceLang.Proofs.Suggestions
import TraceLang.Proofs.Braces
import TraceLang.Proofs.Visibility
import TraceLang.Proofs.Positions
import TraceLang.Proofs.Prompting
