import Lox.Ast
import Lox.Ast.Description
import Lox.Ast.Grammar
import Lox.Ast.Outline
import Lox.Ast.Parser
import Lox.Ast.Rendering
import Lox.Ast.Unresolved
import Lox.Bindings
import Lox.CallDepth
import Lox.Console.Command
import Lox.Console.Help
import Lox.Console.Item
import Lox.Console.Path
import Lox.Console.Plain
import Lox.Console.Transcript
import Lox.Diagnostic
import Lox.Eval
import Lox.Failure
import Lox.Heap.Access
import Lox.Heap.Basic
import Lox.Heap.Collect
import Lox.Heap.Object
import Lox.Heap.Reach
import Lox.Json
import Lox.Machine
import Lox.Main
import Lox.Number.Binary
import Lox.Number.Layout
import Lox.Number.Numeral
import Lox.Number.Shortest
import Lox.Position
import Lox.Proofs.Ast.Bounds
import Lox.Proofs.Ast.Built
import Lox.Proofs.Ast.Earliest
import Lox.Proofs.Ast.Joining
import Lox.Proofs.Ast.Likeness
import Lox.Proofs.Ast.Lockstep
import Lox.Proofs.Ast.Operands
import Lox.Proofs.Ast.Origins
import Lox.Proofs.Ast.Parts
import Lox.Proofs.Ast.Phrases
import Lox.Proofs.Ast.Precedence
import Lox.Proofs.Ast.Recovery
import Lox.Proofs.Ast.Rendered
import Lox.Proofs.Ast.Restored
import Lox.Proofs.Ast.Sentences
import Lox.Proofs.Ast.Statements
import Lox.Proofs.Ast.Tracking
import Lox.Proofs.Ast.Unfolded
import Lox.Proofs.Ast.Unfolding
import Lox.Proofs.Ast.Wording
import Lox.Proofs.Eval.Arithmetic
import Lox.Proofs.Eval.Asking
import Lox.Proofs.Eval.Balance
import Lox.Proofs.Eval.Blame
import Lox.Proofs.Eval.Calls
import Lox.Proofs.Eval.Classes
import Lox.Proofs.Eval.Consumption
import Lox.Proofs.Eval.CopiedNodes
import Lox.Proofs.Eval.CopiedTasks
import Lox.Proofs.Eval.Course
import Lox.Proofs.Eval.Dispatch
import Lox.Proofs.Eval.Fitting
import Lox.Proofs.Eval.Keeping
import Lox.Proofs.Eval.Limits
import Lox.Proofs.Eval.Nodes
import Lox.Proofs.Eval.Order
import Lox.Proofs.Eval.Performed
import Lox.Proofs.Eval.Permanence
import Lox.Proofs.Eval.Raising
import Lox.Proofs.Eval.Released
import Lox.Proofs.Eval.Safety
import Lox.Proofs.Eval.Signals
import Lox.Proofs.Eval.Simulation
import Lox.Proofs.Eval.Stages
import Lox.Proofs.Eval.Tasks
import Lox.Proofs.Eval.UnfoldedNodes
import Lox.Proofs.Eval.UnfoldedTasks
import Lox.Proofs.Eval.Uniform
import Lox.Proofs.Heap.Accounts
import Lox.Proofs.Heap.Agreement
import Lox.Proofs.Heap.Aligned
import Lox.Proofs.Heap.Allocation
import Lox.Proofs.Heap.Apart
import Lox.Proofs.Heap.Blank
import Lox.Proofs.Heap.Chains
import Lox.Proofs.Heap.Classes
import Lox.Proofs.Heap.Coherence
import Lox.Proofs.Heap.Collection
import Lox.Proofs.Heap.Comparison
import Lox.Proofs.Heap.Copying
import Lox.Proofs.Heap.Endings
import Lox.Proofs.Heap.Enrolment
import Lox.Proofs.Heap.Failures
import Lox.Proofs.Heap.Growth
import Lox.Proofs.Heap.History
import Lox.Proofs.Heap.Marking
import Lox.Proofs.Heap.Pacing
import Lox.Proofs.Heap.Parallel
import Lox.Proofs.Heap.Permanence
import Lox.Proofs.Heap.Released
import Lox.Proofs.Heap.Requests
import Lox.Proofs.Heap.Respelled
import Lox.Proofs.Heap.Selfsame
import Lox.Proofs.Heap.Stray
import Lox.Proofs.Heap.Thresholds
import Lox.Proofs.Heap.Tidying
import Lox.Proofs.Heap.Unfolding
import Lox.Proofs.Heap.Unmarked
import Lox.Proofs.Heap.World
import Lox.Proofs.Machine.Apart
import Lox.Proofs.Machine.Balance
import Lox.Proofs.Machine.CopiedRuns
import Lox.Proofs.Machine.Copies
import Lox.Proofs.Machine.Entering
import Lox.Proofs.Machine.Runs
import Lox.Proofs.Machine.Twins
import Lox.Proofs.Machine.Unfolding
import Lox.Proofs.Number.Nearest
import Lox.Proofs.Number.Products
import Lox.Proofs.Number.Rounding
import Lox.Proofs.Number.Shortest
import Lox.Proofs.Number.Texts
import Lox.Proofs.Scope.Context
import Lox.Proofs.Scope.Jumps
import Lox.Proofs.Scope.Likeness
import Lox.Proofs.Scope.Naming
import Lox.Proofs.Scope.Parameters
import Lox.Proofs.Scope.Renamed
import Lox.Proofs.Scope.Renaming
import Lox.Proofs.Scope.Sites
import Lox.Proofs.Scope.Spelled
import Lox.Proofs.Scope.Superclasses
import Lox.Proofs.Scope.Unfolding
import Lox.Proofs.Scope.Unresolved
import Lox.Proofs.Scope.Violations
import Lox.Proofs.Scope.Walk
import Lox.Proofs.Session.Along
import Lox.Proofs.Session.Apart
import Lox.Proofs.Session.Blame
import Lox.Proofs.Session.Calls
import Lox.Proofs.Session.Compilation
import Lox.Proofs.Session.Course
import Lox.Proofs.Session.Depth
import Lox.Proofs.Session.Dispatch
import Lox.Proofs.Session.Hosting
import Lox.Proofs.Session.Increments
import Lox.Proofs.Session.Invisibility
import Lox.Proofs.Session.Isolation
import Lox.Proofs.Session.Keeping
import Lox.Proofs.Session.Manual
import Lox.Proofs.Session.Performed
import Lox.Proofs.Session.Printing
import Lox.Proofs.Session.Quoting
import Lox.Proofs.Session.Raising
import Lox.Proofs.Session.Reached
import Lox.Proofs.Session.Renaming
import Lox.Proofs.Session.Scoping
import Lox.Proofs.Session.Settings
import Lox.Proofs.Session.Signals
import Lox.Proofs.Session.Stacks
import Lox.Proofs.Session.Unfolding
import Lox.Proofs.Settings.Loading
import Lox.Proofs.Text.Lines
import Lox.Proofs.Token.Joining
import Lox.Proofs.Token.Layout
import Lox.Proofs.Token.Partition
import Lox.Proofs.Token.Printed
import Lox.Proofs.Token.Spelling
import Lox.Proofs.Value.Equality
import Lox.Report
import Lox.Run
import Lox.Scope.Resolution
import Lox.Scope.Rules
import Lox.Session
import Lox.Settings.Basic
import Lox.Settings.Coerce
import Lox.Settings.Store
import Lox.Text.Blank
import Lox.Text.Lines
import Lox.Text.Printable
import Lox.Text.Quoted
import Lox.Text.Styled
import Lox.Token
import Lox.Token.Scanner
import Lox.Value
