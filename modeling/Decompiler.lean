import Decompiler.Assembly
import Decompiler.Bytecode.Effect
import Decompiler.Bytecode.FieldType
import Decompiler.Bytecode.Instr
import Decompiler.Bytecode.Kind
import Decompiler.Bytecode.Local
import Decompiler.Bytecode.Method
import Decompiler.Bytecode.Signature
import Decompiler.Chain.Guard
import Decompiler.Chain.Paths
import Decompiler.Chain.Test
import Decompiler.Context
import Decompiler.Decompile
import Decompiler.Fault
import Decompiler.Graph.Block
import Decompiler.Graph.Build
import Decompiler.Graph.Listing
import Decompiler.Graph.Tidy
import Decompiler.Numeric.Binary
import Decompiler.Numeric.Positional
import Decompiler.Numeric.Shortest
import Decompiler.Order.Stable
import Decompiler.Proofs.Assembly.ForLoops
import Decompiler.Proofs.Assembly.Recovered
import Decompiler.Proofs.BackEdges.Observed
import Decompiler.Proofs.BackEdges.Recorded
import Decompiler.Proofs.Bounds.Checked
import Decompiler.Proofs.Bounds.Extents
import Decompiler.Proofs.Bounds.Plans
import Decompiler.Proofs.Bounds.Regions
import Decompiler.Proofs.Bounds.Sections
import Decompiler.Proofs.Bounds.Steps
import Decompiler.Proofs.Calls.Behavior
import Decompiler.Proofs.Calls.Bytecode
import Decompiler.Proofs.Calls.Code
import Decompiler.Proofs.Calls.Decompile
import Decompiler.Proofs.Calls.Loops
import Decompiler.Proofs.Calls.Stretch
import Decompiler.Proofs.Catches.Cover
import Decompiler.Proofs.Catches.Dispatch
import Decompiler.Proofs.Catches.Founded
import Decompiler.Proofs.Catches.Groups
import Decompiler.Proofs.Catches.Layout
import Decompiler.Proofs.Chain.Asked
import Decompiler.Proofs.Chain.Broken
import Decompiler.Proofs.Chain.Factored
import Decompiler.Proofs.Chain.Groups
import Decompiler.Proofs.Chain.Joined
import Decompiler.Proofs.Chain.Order
import Decompiler.Proofs.Chain.Paths
import Decompiler.Proofs.Chain.Row
import Decompiler.Proofs.Chain.Shapes
import Decompiler.Proofs.Chain.Sides
import Decompiler.Proofs.Chain.Truth
import Decompiler.Proofs.Chain.Unordered
import Decompiler.Proofs.Chain.Walk
import Decompiler.Proofs.Concatenation.Chains
import Decompiler.Proofs.Concatenation.Texts
import Decompiler.Proofs.Condition.Asked
import Decompiler.Proofs.Condition.Grammar
import Decompiler.Proofs.Condition.Negation
import Decompiler.Proofs.Condition.Normal
import Decompiler.Proofs.Condition.Printed
import Decompiler.Proofs.Condition.Same
import Decompiler.Proofs.Condition.Truth
import Decompiler.Proofs.Descriptor.Grammar
import Decompiler.Proofs.Exits.Arms
import Decompiler.Proofs.Exits.Changes
import Decompiler.Proofs.Exits.Dealt
import Decompiler.Proofs.Exits.Escapes
import Decompiler.Proofs.Exits.Loops
import Decompiler.Proofs.Exits.Sections
import Decompiler.Proofs.Faults
import Decompiler.Proofs.Graph.Cut
import Decompiler.Proofs.Graph.Edges
import Decompiler.Proofs.Graph.Idempotent
import Decompiler.Proofs.Graph.Runs
import Decompiler.Proofs.Graph.SameRuns
import Decompiler.Proofs.Graph.Sequential
import Decompiler.Proofs.Graph.Tidy
import Decompiler.Proofs.Graph.Total
import Decompiler.Proofs.Graph.Unfolded
import Decompiler.Proofs.Graph.WellFormed
import Decompiler.Proofs.Likeness.Built
import Decompiler.Proofs.Likeness.Bypass
import Decompiler.Proofs.Likeness.Ends
import Decompiler.Proofs.Likeness.Labels
import Decompiler.Proofs.Likeness.Markers
import Decompiler.Proofs.Likeness.Mirrors
import Decompiler.Proofs.Likeness.Parts
import Decompiler.Proofs.Likeness.Points
import Decompiler.Proofs.Likeness.Readers
import Decompiler.Proofs.Likeness.Region
import Decompiler.Proofs.Likeness.Rows
import Decompiler.Proofs.Likeness.Statements
import Decompiler.Proofs.Likeness.Step
import Decompiler.Proofs.Likeness.Swaps
import Decompiler.Proofs.Likeness.Tidy
import Decompiler.Proofs.Lists
import Decompiler.Proofs.Locals.Dependence
import Decompiler.Proofs.Locals.Lookup
import Decompiler.Proofs.Loops.Closed
import Decompiler.Proofs.Loops.Count
import Decompiler.Proofs.Loops.Guarded
import Decompiler.Proofs.Loops.Listed
import Decompiler.Proofs.Loops.Sections
import Decompiler.Proofs.Loops.Settled
import Decompiler.Proofs.Placement.Fills
import Decompiler.Proofs.Placement.Placed
import Decompiler.Proofs.Placement.Resolved
import Decompiler.Proofs.Placement.Sections
import Decompiler.Proofs.Placement.Straight
import Decompiler.Proofs.Region.Course
import Decompiler.Proofs.Region.Cuts
import Decompiler.Proofs.Region.Follows
import Decompiler.Proofs.Region.Found
import Decompiler.Proofs.Region.Kept
import Decompiler.Proofs.Region.Least
import Decompiler.Proofs.Region.Linked
import Decompiler.Proofs.Region.Right
import Decompiler.Proofs.Region.Sound
import Decompiler.Proofs.Region.Stands
import Decompiler.Proofs.Region.Steps
import Decompiler.Proofs.Region.Told
import Decompiler.Proofs.Result
import Decompiler.Proofs.Simulation.Calls
import Decompiler.Proofs.Simulation.Compiled
import Decompiler.Proofs.Simulation.Depth
import Decompiler.Proofs.Simulation.Frame
import Decompiler.Proofs.Simulation.Operands
import Decompiler.Proofs.Simulation.Values
import Decompiler.Proofs.Structured.Arm
import Decompiler.Proofs.Structured.Assembles
import Decompiler.Proofs.Structured.Blocks
import Decompiler.Proofs.Structured.Fold
import Decompiler.Proofs.Structured.Layout
import Decompiler.Proofs.Structured.RoundTrip
import Decompiler.Proofs.Structured.Sits
import Decompiler.Proofs.Structured.Source
import Decompiler.Proofs.Structured.Takes
import Decompiler.Proofs.Switches.Blocks
import Decompiler.Proofs.Switches.Bytecode
import Decompiler.Proofs.Switches.Cases
import Decompiler.Proofs.Switches.Code
import Decompiler.Proofs.Switches.Continues
import Decompiler.Proofs.Switches.Decompile
import Decompiler.Proofs.Switches.Layout
import Decompiler.Proofs.Switches.Routes
import Decompiler.Proofs.Switches.Sections
import Decompiler.Proofs.Switches.Statements
import Decompiler.Recoveries
import Decompiler.Region.Branch
import Decompiler.Region.Extent
import Decompiler.Region.Loop
import Decompiler.Region.Partition
import Decompiler.Region.Step
import Decompiler.Region.SwitchPlan
import Decompiler.Region.Tests
import Decompiler.Region.TryPlan
import Decompiler.Region.Work
import Decompiler.Section
import Decompiler.Simulation.Step
import Decompiler.Simulation.Value
import Decompiler.Source.Condition.Basic
import Decompiler.Source.Condition.Meaning
import Decompiler.Source.Condition.Normal
import Decompiler.Source.Condition.Text
import Decompiler.Source.Expr.Basic
import Decompiler.Source.Expr.Text
import Decompiler.Source.Idiom
import Decompiler.Source.Statement
import Decompiler.Text.Combining
import Decompiler.Text.Ignorable
import Decompiler.Text.Quoted
import Decompiler.Text.Unprintable
