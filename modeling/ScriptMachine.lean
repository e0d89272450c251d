import ScriptMachine.Bytes
import ScriptMachine.Code.Chunk
import ScriptMachine.Code.Instr
import ScriptMachine.Code.Listing
import ScriptMachine.CommandLine
import ScriptMachine.Compile
import ScriptMachine.Compile.Fragment
import ScriptMachine.Compile.Scope
import ScriptMachine.Diagnostic
import ScriptMachine.Heap
import ScriptMachine.Heap.Collect
import ScriptMachine.Heap.Object
import ScriptMachine.Heap.Store
import ScriptMachine.Journal
import ScriptMachine.Machine
import ScriptMachine.Machine.Action
import ScriptMachine.Machine.Fault
import ScriptMachine.Machine.NativeCall
import ScriptMachine.Machine.Run
import ScriptMachine.Machine.Step
import ScriptMachine.Main
import ScriptMachine.Message
import ScriptMachine.Number.Arithmetic
import ScriptMachine.Number.Binary
import ScriptMachine.Number.Shortest
import ScriptMachine.Number.Text
import ScriptMachine.Prompt
import ScriptMachine.Proofs.Accounting
import ScriptMachine.Proofs.Accounts
import ScriptMachine.Proofs.Actions
import ScriptMachine.Proofs.Beginnings
import ScriptMachine.Proofs.Blindness
import ScriptMachine.Proofs.Calls
import ScriptMachine.Proofs.Captures
import ScriptMachine.Proofs.Cells
import ScriptMachine.Proofs.Chart
import ScriptMachine.Proofs.Chronicle
import ScriptMachine.Proofs.Codecs
import ScriptMachine.Proofs.Collection
import ScriptMachine.Proofs.CommonTokens
import ScriptMachine.Proofs.CompiledFlow
import ScriptMachine.Proofs.CompiledSound
import ScriptMachine.Proofs.Continuing
import ScriptMachine.Proofs.Control
import ScriptMachine.Proofs.Correctness
import ScriptMachine.Proofs.Derivation
import ScriptMachine.Proofs.Detached
import ScriptMachine.Proofs.DetachedHost
import ScriptMachine.Proofs.Diagnosing
import ScriptMachine.Proofs.Disassembly
import ScriptMachine.Proofs.Discipline
import ScriptMachine.Proofs.Discretion
import ScriptMachine.Proofs.Effects
import ScriptMachine.Proofs.Emission
import ScriptMachine.Proofs.Emitting
import ScriptMachine.Proofs.Encoding
import ScriptMachine.Proofs.Entries
import ScriptMachine.Proofs.Evaluation
import ScriptMachine.Proofs.Execution
import ScriptMachine.Proofs.ExpressionCode
import ScriptMachine.Proofs.Failures
import ScriptMachine.Proofs.FewerConstants
import ScriptMachine.Proofs.Finishing
import ScriptMachine.Proofs.Flow
import ScriptMachine.Proofs.Forward
import ScriptMachine.Proofs.Frames
import ScriptMachine.Proofs.Grammar
import ScriptMachine.Proofs.GrownTrees
import ScriptMachine.Proofs.Growth
import ScriptMachine.Proofs.HandleRenaming
import ScriptMachine.Proofs.HiddenScript
import ScriptMachine.Proofs.Hiding
import ScriptMachine.Proofs.Histories
import ScriptMachine.Proofs.Hosts
import ScriptMachine.Proofs.Instructions
import ScriptMachine.Proofs.Integrity
import ScriptMachine.Proofs.Interning
import ScriptMachine.Proofs.Invisible
import ScriptMachine.Proofs.Isolation
import ScriptMachine.Proofs.Judging
import ScriptMachine.Proofs.Keeping
import ScriptMachine.Proofs.Ledger
import ScriptMachine.Proofs.Lexical
import ScriptMachine.Proofs.Lineage
import ScriptMachine.Proofs.Lines
import ScriptMachine.Proofs.Loading
import ScriptMachine.Proofs.Locating
import ScriptMachine.Proofs.Lockstep
import ScriptMachine.Proofs.LoopCode
import ScriptMachine.Proofs.Mirroring
import ScriptMachine.Proofs.MoreText
import ScriptMachine.Proofs.Naming
import ScriptMachine.Proofs.Nesting
import ScriptMachine.Proofs.Nodes
import ScriptMachine.Proofs.Origins
import ScriptMachine.Proofs.Placement
import ScriptMachine.Proofs.Places
import ScriptMachine.Proofs.Pointing
import ScriptMachine.Proofs.Ranges
import ScriptMachine.Proofs.Reached
import ScriptMachine.Proofs.Reading
import ScriptMachine.Proofs.Recognition
import ScriptMachine.Proofs.Records
import ScriptMachine.Proofs.Refusals
import ScriptMachine.Proofs.RenamedActions
import ScriptMachine.Proofs.Resolution
import ScriptMachine.Proofs.Rooted
import ScriptMachine.Proofs.Rules
import ScriptMachine.Proofs.Running
import ScriptMachine.Proofs.Safety
import ScriptMachine.Proofs.Scanning
import ScriptMachine.Proofs.Scoping
import ScriptMachine.Proofs.ScriptCode
import ScriptMachine.Proofs.ScriptStart
import ScriptMachine.Proofs.Sharing
import ScriptMachine.Proofs.Spans
import ScriptMachine.Proofs.StackPreservation
import ScriptMachine.Proofs.StatementBoundaries
import ScriptMachine.Proofs.StatementCode
import ScriptMachine.Proofs.Steps
import ScriptMachine.Proofs.Stores
import ScriptMachine.Proofs.Strings
import ScriptMachine.Proofs.Tokens
import ScriptMachine.Proofs.Traces
import ScriptMachine.Proofs.Tracing
import ScriptMachine.Proofs.Tracking
import ScriptMachine.Proofs.Underlines
import ScriptMachine.Proofs.Variables
import ScriptMachine.Proofs.WellFormed
import ScriptMachine.Report
import ScriptMachine.Session
import ScriptMachine.Source
import ScriptMachine.Token
import ScriptMachine.Token.Scan
import ScriptMachine.Tree
import ScriptMachine.Tree.Parse
