import TensorGraph.Backend
import TensorGraph.Binary32.Basic
import TensorGraph.Binary32.Decimal
import TensorGraph.Binary32.Functions
import TensorGraph.Element
import TensorGraph.Elementwise.Binary
import TensorGraph.Elementwise.Several
import TensorGraph.Elementwise.Unary
import TensorGraph.Execution.Binding
import TensorGraph.Execution.Error
import TensorGraph.Execution.Report
import TensorGraph.Execution.Session
import TensorGraph.Generation.Fill
import TensorGraph.Generation.Random
import TensorGraph.Graph.Basic
import TensorGraph.Graph.Build
import TensorGraph.Graph.Folding
import TensorGraph.Graph.Inference
import TensorGraph.Graph.Json
import TensorGraph.Indexing.Gather
import TensorGraph.Indexing.Position
import TensorGraph.Indexing.Scatter
import TensorGraph.Indexing.Selection
import TensorGraph.Json.Basic
import TensorGraph.Json.Decode
import TensorGraph.Json.Text
import TensorGraph.Layout
import TensorGraph.NameTable
import TensorGraph.Normalization.Channels
import TensorGraph.Normalization.Softmax
import TensorGraph.Operator.Basic
import TensorGraph.Operator.Call
import TensorGraph.Operator.Inputs
import TensorGraph.Operator.Json.Decode
import TensorGraph.Operator.Json.Encode
import TensorGraph.Operator.Kernel
import TensorGraph.Outcome
import TensorGraph.Product.Matrix
import TensorGraph.Proofs.Applying
import TensorGraph.Proofs.Arithmetic
import TensorGraph.Proofs.Axes
import TensorGraph.Proofs.AxisPads
import TensorGraph.Proofs.BestEntries
import TensorGraph.Proofs.Bits
import TensorGraph.Proofs.BlockMoves
import TensorGraph.Proofs.Broadcasting
import TensorGraph.Proofs.Concrete.Folding
import TensorGraph.Proofs.Concrete.Parameters
import TensorGraph.Proofs.Concrete.Rules
import TensorGraph.Proofs.Covering.Element
import TensorGraph.Proofs.Covering.Inputs
import TensorGraph.Proofs.Covering.Integers
import TensorGraph.Proofs.Covering.Reshape
import TensorGraph.Proofs.Covering.Shape
import TensorGraph.Proofs.Covering.Tensor
import TensorGraph.Proofs.Cropping
import TensorGraph.Proofs.DimensionOrders
import TensorGraph.Proofs.ElementCounts
import TensorGraph.Proofs.EqualTensors
import TensorGraph.Proofs.Execution.Acceptance
import TensorGraph.Proofs.Execution.Backends
import TensorGraph.Proofs.Execution.Memory
import TensorGraph.Proofs.Execution.Order
import TensorGraph.Proofs.Execution.Peak
import TensorGraph.Proofs.Execution.Run
import TensorGraph.Proofs.Execution.Soundness
import TensorGraph.Proofs.Execution.Tallies
import TensorGraph.Proofs.Execution.Transparent
import TensorGraph.Proofs.Execution.Values
import TensorGraph.Proofs.ExtremePositions
import TensorGraph.Proofs.Faults.Counting
import TensorGraph.Proofs.Faults.Parameters
import TensorGraph.Proofs.Faults.Rules
import TensorGraph.Proofs.Faults.Windows
import TensorGraph.Proofs.Follows
import TensorGraph.Proofs.GatheredSlices
import TensorGraph.Proofs.Graph.Build
import TensorGraph.Proofs.Graph.Facts
import TensorGraph.Proofs.Graph.Faults
import TensorGraph.Proofs.Graph.Folding
import TensorGraph.Proofs.Graph.Incremental
import TensorGraph.Proofs.Graph.Planned
import TensorGraph.Proofs.Graph.Refolding
import TensorGraph.Proofs.InsertedOnes
import TensorGraph.Proofs.JoinedAxes
import TensorGraph.Proofs.Json.Graphs
import TensorGraph.Proofs.Json.Numbers
import TensorGraph.Proofs.Json.Operators
import TensorGraph.Proofs.Json.Reading
import TensorGraph.Proofs.Json.Records
import TensorGraph.Proofs.Json.Text
import TensorGraph.Proofs.Kernels.Chunks
import TensorGraph.Proofs.Kernels.Copies
import TensorGraph.Proofs.Kernels.Dispatch
import TensorGraph.Proofs.Kernels.Elements
import TensorGraph.Proofs.Kernels.Elementwise
import TensorGraph.Proofs.Kernels.Joining
import TensorGraph.Proofs.Kernels.Making
import TensorGraph.Proofs.Kernels.Numeric
import TensorGraph.Proofs.Kernels.Operators
import TensorGraph.Proofs.Kernels.Outputs
import TensorGraph.Proofs.Kernels.Reading
import TensorGraph.Proofs.Kernels.Reduction
import TensorGraph.Proofs.Kernels.Slicing
import TensorGraph.Proofs.Lengths
import TensorGraph.Proofs.Magnitudes
import TensorGraph.Proofs.MatrixProducts
import TensorGraph.Proofs.MeasuredRanges
import TensorGraph.Proofs.Merging
import TensorGraph.Proofs.NonNegative.Inference
import TensorGraph.Proofs.NonNegative.Rearranging
import TensorGraph.Proofs.NonNegative.Shapes
import TensorGraph.Proofs.NonNegative.Telling
import TensorGraph.Proofs.NonNegative.Windows
import TensorGraph.Proofs.NonZeroPositions
import TensorGraph.Proofs.NumberOrder
import TensorGraph.Proofs.OneHotLanes
import TensorGraph.Proofs.Places
import TensorGraph.Proofs.Positions
import TensorGraph.Proofs.Progressions
import TensorGraph.Proofs.ReducedShapes
import TensorGraph.Proofs.Related
import TensorGraph.Proofs.RepeatedTensors
import TensorGraph.Proofs.ResolvedAxes
import TensorGraph.Proofs.Rules.Elementwise
import TensorGraph.Proofs.Rules.Generation
import TensorGraph.Proofs.Rules.Indexing
import TensorGraph.Proofs.Rules.Joining
import TensorGraph.Proofs.Rules.Measuring
import TensorGraph.Proofs.Rules.Normalization
import TensorGraph.Proofs.Rules.Operators
import TensorGraph.Proofs.Rules.Reduction
import TensorGraph.Proofs.Rules.Reshaping
import TensorGraph.Proofs.Rules.Resizing
import TensorGraph.Proofs.Rules.Slicing
import TensorGraph.Proofs.Rules.Spatial
import TensorGraph.Proofs.RunningSums
import TensorGraph.Proofs.Safety.Blocks
import TensorGraph.Proofs.Safety.Calls
import TensorGraph.Proofs.Safety.Elementwise
import TensorGraph.Proofs.Safety.Extent
import TensorGraph.Proofs.Safety.Images
import TensorGraph.Proofs.Safety.Indexing
import TensorGraph.Proofs.Safety.Joining
import TensorGraph.Proofs.Safety.Lanes
import TensorGraph.Proofs.Safety.Making
import TensorGraph.Proofs.Safety.Operators
import TensorGraph.Proofs.Safety.Padding
import TensorGraph.Proofs.Safety.Products
import TensorGraph.Proofs.Safety.Ranges
import TensorGraph.Proofs.Safety.Resizing
import TensorGraph.Proofs.Safety.Selection
import TensorGraph.Proofs.Safety.Sizes
import TensorGraph.Proofs.Safety.Tensors
import TensorGraph.Proofs.Safety.Windows
import TensorGraph.Proofs.SamePadding
import TensorGraph.Proofs.ScatteredElements
import TensorGraph.Proofs.ScatteredSlices
import TensorGraph.Proofs.SlicedPositions
import TensorGraph.Proofs.SplitJoins
import TensorGraph.Proofs.Spreading
import TensorGraph.Proofs.Tracking.Faithful
import TensorGraph.Proofs.Tracking.FaithfulRules
import TensorGraph.Proofs.Tracking.Inference
import TensorGraph.Proofs.Tracking.Rules
import TensorGraph.Proofs.Tracking.Tensor
import TensorGraph.Proofs.Walks
import TensorGraph.Proofs.Words
import TensorGraph.Proofs.Writes
import TensorGraph.Rearrange.Blocks
import TensorGraph.Rearrange.Joining
import TensorGraph.Rearrange.Measure
import TensorGraph.Rearrange.Padding
import TensorGraph.Rearrange.Reshaping
import TensorGraph.Rearrange.Slicing
import TensorGraph.Rearrange.Transposition
import TensorGraph.Rearrange.Triangle
import TensorGraph.Reduction.Basic
import TensorGraph.Reduction.Ranking
import TensorGraph.Reduction.RunningSum
import TensorGraph.Refusal
import TensorGraph.Spatial.Convolution
import TensorGraph.Spatial.Pooling
import TensorGraph.Spatial.Resizing
import TensorGraph.Spatial.Window
import TensorGraph.Symbolic.Dim
import TensorGraph.Symbolic.Element
import TensorGraph.Symbolic.Extent
import TensorGraph.Symbolic.Reshape
import TensorGraph.Symbolic.Shape
import TensorGraph.Symbolic.Slice
import TensorGraph.Symbolic.Tensor
import TensorGraph.Tensor
import TensorGraph.Tensor.Agreement
import TensorGraph.Tensor.Json
import TensorGraph.Text
import TensorGraph.Value
import TensorGraph.Word
