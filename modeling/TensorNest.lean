import TensorNest.Assembly
import TensorNest.Binary
import TensorNest.Buffer
import TensorNest.Buffer.Basic
import TensorNest.Config
import TensorNest.DataType
import TensorNest.DataType.Combine
import TensorNest.DataType.Element
import TensorNest.Decimal.Column
import TensorNest.Decimal.Reading
import TensorNest.Decimal.Shortest
import TensorNest.Error
import TensorNest.Expr.Basic
import TensorNest.Expr.Build
import TensorNest.Expr.Interval
import TensorNest.Expr.Linear
import TensorNest.Expr.Operand
import TensorNest.Expr.Print
import TensorNest.Expr.Rebuild
import TensorNest.Expr.Same
import TensorNest.Expr.Simplify
import TensorNest.Expr.Visit
import TensorNest.Func
import TensorNest.Graph.Axis
import TensorNest.Graph.Basic
import TensorNest.Graph.Compute
import TensorNest.Graph.Tensor
import TensorNest.Lower
import TensorNest.Lowering.Access
import TensorNest.Lowering.Barrier
import TensorNest.Lowering.Convention
import TensorNest.Lowering.DoubleBuffer
import TensorNest.Lowering.Flatten
import TensorNest.Lowering.HostCalls
import TensorNest.Lowering.Launch
import TensorNest.Lowering.MathCalls
import TensorNest.Lowering.Partition
import TensorNest.Lowering.Prefetch
import TensorNest.Lowering.StorageReuse
import TensorNest.Lowering.ThreadReduction
import TensorNest.Lowering.Unroll
import TensorNest.Lowering.Vector
import TensorNest.Module
import TensorNest.Number
import TensorNest.Object
import TensorNest.Object.Basic
import TensorNest.Object.Same
import TensorNest.Operator
import TensorNest.Outline
import TensorNest.Pass
import TensorNest.Proofs.Accumulation
import TensorNest.Proofs.Addressing
import TensorNest.Proofs.Alignment
import TensorNest.Proofs.Attachment
import TensorNest.Proofs.Axes
import TensorNest.Proofs.Barriers
import TensorNest.Proofs.Bindings
import TensorNest.Proofs.Blocks
import TensorNest.Proofs.Builders
import TensorNest.Proofs.BuiltTypes
import TensorNest.Proofs.Closed
import TensorNest.Proofs.Combiners
import TensorNest.Proofs.Constraints
import TensorNest.Proofs.Coordinates
import TensorNest.Proofs.Copies
import TensorNest.Proofs.Coverage
import TensorNest.Proofs.Creation
import TensorNest.Proofs.Cuts
import TensorNest.Proofs.Derivation
import TensorNest.Proofs.Division
import TensorNest.Proofs.Echoes
import TensorNest.Proofs.Edit
import TensorNest.Proofs.Evaluation
import TensorNest.Proofs.Exactness
import TensorNest.Proofs.Execution
import TensorNest.Proofs.Expression
import TensorNest.Proofs.Extents
import TensorNest.Proofs.Failure
import TensorNest.Proofs.FlatForms
import TensorNest.Proofs.Flattening
import TensorNest.Proofs.Folds
import TensorNest.Proofs.Grids
import TensorNest.Proofs.HostAllocations
import TensorNest.Proofs.Idleness
import TensorNest.Proofs.IndexArithmetic
import TensorNest.Proofs.Integers
import TensorNest.Proofs.Intervals
import TensorNest.Proofs.LaneConsistency
import TensorNest.Proofs.Launching
import TensorNest.Proofs.LazyChoices
import TensorNest.Proofs.Likeness
import TensorNest.Proofs.LinearComparisons
import TensorNest.Proofs.LinearSplits
import TensorNest.Proofs.Linking
import TensorNest.Proofs.Locality
import TensorNest.Proofs.Lookups
import TensorNest.Proofs.Magnitudes
import TensorNest.Proofs.Meaning
import TensorNest.Proofs.Mentions
import TensorNest.Proofs.Moments
import TensorNest.Proofs.NestRuns
import TensorNest.Proofs.Nests
import TensorNest.Proofs.NormalForms
import TensorNest.Proofs.Ownership
import TensorNest.Proofs.PartitionedRuns
import TensorNest.Proofs.Partitions
import TensorNest.Proofs.Parts
import TensorNest.Proofs.Prologue
import TensorNest.Proofs.Provisions
import TensorNest.Proofs.Queries
import TensorNest.Proofs.Ranks
import TensorNest.Proofs.Readings
import TensorNest.Proofs.Records
import TensorNest.Proofs.Redirection
import TensorNest.Proofs.ReductionNests
import TensorNest.Proofs.Reductions
import TensorNest.Proofs.Reference
import TensorNest.Proofs.Regions
import TensorNest.Proofs.RelocatedCalls
import TensorNest.Proofs.Relocation
import TensorNest.Proofs.Renaming
import TensorNest.Proofs.Rewriting
import TensorNest.Proofs.Rounding
import TensorNest.Proofs.Rounds
import TensorNest.Proofs.RowMajor
import TensorNest.Proofs.Schedule
import TensorNest.Proofs.Scopes
import TensorNest.Proofs.SharedBuffers
import TensorNest.Proofs.Simplification
import TensorNest.Proofs.SplitPoints
import TensorNest.Proofs.Splitting
import TensorNest.Proofs.StageOrder
import TensorNest.Proofs.Stages
import TensorNest.Proofs.Strays
import TensorNest.Proofs.SubstitutedRuns
import TensorNest.Proofs.Substitution
import TensorNest.Proofs.Teams
import TensorNest.Proofs.ThreadGroups
import TensorNest.Proofs.ThreadReductions
import TensorNest.Proofs.TidiedRuns
import TensorNest.Proofs.Tidiness
import TensorNest.Proofs.Tidying
import TensorNest.Proofs.TrackedThreads
import TensorNest.Proofs.Tracking
import TensorNest.Proofs.Trails
import TensorNest.Proofs.Transforms
import TensorNest.Proofs.Traversal
import TensorNest.Proofs.TreeStatements
import TensorNest.Proofs.TreeVariables
import TensorNest.Proofs.Trees
import TensorNest.Proofs.TypeNames
import TensorNest.Proofs.Typing
import TensorNest.Proofs.UnrolledRuns
import TensorNest.Proofs.Unrolling
import TensorNest.Proofs.Words
import TensorNest.Proofs.Workspaces
import TensorNest.Proofs.Writes
import TensorNest.Revised
import TensorNest.Run.ArrayText
import TensorNest.Run.Call
import TensorNest.Run.Element
import TensorNest.Run.Eval
import TensorNest.Run.Exec
import TensorNest.Run.Intrinsic
import TensorNest.Run.Machine
import TensorNest.Run.Math
import TensorNest.Run.Memory
import TensorNest.Run.Numeric
import TensorNest.Run.Suspension
import TensorNest.Run.Value
import TensorNest.Schedule.Basic
import TensorNest.Schedule.Bounds
import TensorNest.Schedule.Nest
import TensorNest.Schedule.Normalize
import TensorNest.Schedule.Policy
import TensorNest.Schedule.Stage
import TensorNest.Session
import TensorNest.Setting
import TensorNest.Stmt.Basic
import TensorNest.Stmt.Print
import TensorNest.Stmt.Rebuild
import TensorNest.Stmt.Same
import TensorNest.Stmt.Simplify
import TensorNest.Stmt.Tidy
import TensorNest.Stmt.Visit
import TensorNest.Target
import TensorNest.Template
import TensorNest.Text.Blank
import TensorNest.Text.Digit
import TensorNest.Text.Printable
import TensorNest.Text.Quoted
