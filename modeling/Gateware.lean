import Gateware.Bits
import Gateware.Cell
import Gateware.Clock
import Gateware.Command.Arguments
import Gateware.Command.Demo
import Gateware.Command.Invocation
import Gateware.Command.Run
import Gateware.Config.Basic
import Gateware.Config.Read
import Gateware.Conversion.Basic
import Gateware.Conversion.Check
import Gateware.Conversion.Port
import Gateware.Decimal.Scan
import Gateware.Decimal.Shortest
import Gateware.Decimal.Text
import Gateware.Diagnostic.Basic
import Gateware.Diagnostic.Code
import Gateware.Diagnostic.Lint
import Gateware.Diagnostic.Render
import Gateware.Digest
import Gateware.Expr.Basic
import Gateware.Expr.Build
import Gateware.Expr.Normal
import Gateware.Expr.Ref
import Gateware.Expr.Shape
import Gateware.Expr.Slice
import Gateware.Expr.Target
import Gateware.Fault
import Gateware.Files.Path
import Gateware.Files.Tree
import Gateware.Graph
import Gateware.Hierarchy.Context
import Gateware.Hierarchy.Finalize
import Gateware.Hierarchy.Module
import Gateware.Lowering.Basic
import Gateware.Lowering.Pad
import Gateware.Lowering.Synchronizer
import Gateware.Lowering.Target
import Gateware.Machine.Basic
import Gateware.Machine.Compile
import Gateware.Main
import Gateware.Memory
import Gateware.Netlist.Basic
import Gateware.Netlist.Decorator
import Gateware.Netlist.Domains
import Gateware.Netlist.Drivers
import Gateware.Netlist.Resolve
import Gateware.Ordered.Basic
import Gateware.Ordered.Map
import Gateware.Ordered.Set
import Gateware.Proofs.Admission
import Gateware.Proofs.Arithmetic
import Gateware.Proofs.Bits
import Gateware.Proofs.Calls
import Gateware.Proofs.Conflicts
import Gateware.Proofs.Conversion.Prepared
import Gateware.Proofs.Decoration
import Gateware.Proofs.Dependence
import Gateware.Proofs.Domains.Relabeling
import Gateware.Proofs.Domains.Substitution
import Gateware.Proofs.Drivers
import Gateware.Proofs.Feedback
import Gateware.Proofs.Folding.Choices
import Gateware.Proofs.Folding.Invariants
import Gateware.Proofs.Folding.Overwrite
import Gateware.Proofs.Folding.Reads
import Gateware.Proofs.Folding.Run
import Gateware.Proofs.Folding.Store
import Gateware.Proofs.Footprint
import Gateware.Proofs.Frame
import Gateware.Proofs.Graph
import Gateware.Proofs.Grouping
import Gateware.Proofs.Hierarchy.Depth
import Gateware.Proofs.Hierarchy.Flattening
import Gateware.Proofs.Hierarchy.Renaming
import Gateware.Proofs.Hierarchy.Separation
import Gateware.Proofs.Hierarchy.Sum
import Gateware.Proofs.Lints
import Gateware.Proofs.Loading
import Gateware.Proofs.Locality
import Gateware.Proofs.Lockstep
import Gateware.Proofs.Lowering.Delay
import Gateware.Proofs.Lowering.Release
import Gateware.Proofs.Lowering.Rounds
import Gateware.Proofs.Machine.Aliases
import Gateware.Proofs.Machine.Commit
import Gateware.Proofs.Machine.Cycles
import Gateware.Proofs.Machine.Delay
import Gateware.Proofs.Machine.Effect
import Gateware.Proofs.Machine.Events
import Gateware.Proofs.Machine.History
import Gateware.Proofs.Machine.Parts
import Gateware.Proofs.Machine.Plain
import Gateware.Proofs.Machine.Recovery
import Gateware.Proofs.Machine.Selection
import Gateware.Proofs.Machine.Step
import Gateware.Proofs.Machine.Watching
import Gateware.Proofs.Memory.Made
import Gateware.Proofs.Memory.Ports
import Gateware.Proofs.Memory.Range
import Gateware.Proofs.Memory.Words
import Gateware.Proofs.Mentions
import Gateware.Proofs.Narrowing
import Gateware.Proofs.Ordered
import Gateware.Proofs.Partition
import Gateware.Proofs.Pass
import Gateware.Proofs.Performed
import Gateware.Proofs.Placement
import Gateware.Proofs.Progress
import Gateware.Proofs.Rekeying
import Gateware.Proofs.Renumbering.Conversion
import Gateware.Proofs.Renumbering.Expr
import Gateware.Proofs.Renumbering.Folding
import Gateware.Proofs.Renumbering.Lowering
import Gateware.Proofs.Renumbering.Netlist
import Gateware.Proofs.Reordering
import Gateware.Proofs.Resolution
import Gateware.Proofs.Runs
import Gateware.Proofs.Schedule
import Gateware.Proofs.Settling
import Gateware.Proofs.SingleDriver
import Gateware.Proofs.Slicing
import Gateware.Proofs.Stability
import Gateware.Proofs.Statements
import Gateware.Proofs.Target.Normal
import Gateware.Proofs.Target.Positions
import Gateware.Proofs.Target.Routing
import Gateware.Proofs.Verilog.Contents
import Gateware.Proofs.Verilog.Emission
import Gateware.Proofs.Verilog.Identifiers
import Gateware.Proofs.Verilog.Module
import Gateware.Proofs.Verilog.Naming
import Gateware.Proofs.Verilog.Printing
import Gateware.Proofs.Verilog.Temporaries
import Gateware.Proofs.Widths
import Gateware.Proofs.Wires
import Gateware.Shape
import Gateware.Signal
import Gateware.Simulation.Eval
import Gateware.Simulation.Frame
import Gateware.Simulation.Memory
import Gateware.Simulation.Process
import Gateware.Simulation.Simulator
import Gateware.Stmt.Basic
import Gateware.Stmt.Fold
import Gateware.Stmt.Replace
import Gateware.Stmt.Sets
import Gateware.Text.Json
import Gateware.Text.Quoted
import Gateware.Text.Visible
import Gateware.Toml.Document
import Gateware.Toml.Scalar
import Gateware.Toml.Value
import Gateware.Verilog.Cell
import Gateware.Verilog.Expression
import Gateware.Verilog.Layout
import Gateware.Verilog.Module
import Gateware.Verilog.Name
import Gateware.Verilog.Printer
import Gateware.Verilog.Statement
