import TensorGraph.Elementwise.Several
import TensorGraph.Elementwise.Unary
import TensorGraph.Generation.Fill
import TensorGraph.Generation.Random
import TensorGraph.Indexing.Scatter
import TensorGraph.Indexing.Selection
import TensorGraph.Normalization.Channels
import TensorGraph.Product.Matrix
import TensorGraph.Rearrange.Blocks
import TensorGraph.Rearrange.Joining
import TensorGraph.Rearrange.Measure
import TensorGraph.Rearrange.Padding
import TensorGraph.Rearrange.Slicing
import TensorGraph.Rearrange.Transposition
import TensorGraph.Rearrange.Triangle
import TensorGraph.Reduction.Basic
import TensorGraph.Reduction.Ranking
import TensorGraph.Reduction.RunningSum
import TensorGraph.Spatial.Convolution
import TensorGraph.Spatial.Pooling
import TensorGraph.Spatial.Resizing

/-!
The operators that a graph applies: their names, how many inputs and outputs they have, and their
shape rules.
-/

namespace TensorGraph

inductive Operator where
  | argReduce (op : ArgReduce)
  | batchNormalization (op : BatchNormalization)
  | binary (f : BinaryFn)
  | cast (wanted : DataType)
  | castLike
  | clip
  | compress (op : Compress)
  | concat (op : Concat)
  | constantOfShape (op : ConstantOfShape)
  | conv (op : Conv)
  | convTranspose (op : ConvTranspose)
  | cumSum (op : CumSum)
  | depthToSpace (op : DepthToSpace)
  | expand
  | eyeLike (op : EyeLike)
  | flatten (op : Flatten)
  | gather (op : Gather)
  | gatherElements (op : GatherElements)
  | gatherND (op : GatherND)
  | gemm (op : Gemm)
  | globalPool (op : GlobalPool)
  | identity
  | instanceNormalization (op : InstanceNormalization)
  | layerNormalization (op : LayerNormalization)
  | lrn (op : Lrn)
  | matMul
  | nonZero
  | oneHot (op : OneHot)
  | pad (op : Pad)
  | pool (op : Pool)
  | random (op : Sampling)
  | range
  | reduce (op : Reduce)
  | reshape (op : Reshape)
  | resize (op : Resize)
  | scatterElements (op : ScatterElements)
  | scatterND (op : ScatterND)
  | shapeOf (op : ShapeOf)
  | sizeOf
  | slice
  | softmax (op : Softmax)
  | spaceToDepth (op : SpaceToDepth)
  | split (op : Split)
  | squeeze
  | tile
  | topK (op : TopK)
  | transpose (op : Transpose)
  | trilu (op : Trilu)
  | unary (f : UnaryFn)
  | unsqueeze
  | variadic (f : VariadicFn)
  | select
  deriving DecidableEq, Repr

namespace Operator

def name : Operator → String
  | argReduce op => op.name
  | batchNormalization _ => "BatchNormalization"
  | binary f => f.name
  | cast _ => "Cast"
  | castLike => "CastLike"
  | clip => "Clip"
  | compress _ => "Compress"
  | concat _ => "Concat"
  | constantOfShape _ => "ConstantOfShape"
  | conv _ => "Conv"
  | convTranspose _ => "ConvTranspose"
  | cumSum _ => "CumSum"
  | depthToSpace _ => "DepthToSpace"
  | expand => "Expand"
  | eyeLike _ => "EyeLike"
  | flatten _ => "Flatten"
  | gather _ => "Gather"
  | gatherElements _ => "GatherElements"
  | gatherND _ => "GatherND"
  | gemm _ => "Gemm"
  | globalPool op => op.name
  | identity => "Identity"
  | instanceNormalization _ => "InstanceNormalization"
  | layerNormalization _ => "LayerNormalization"
  | lrn _ => "LRN"
  | matMul => "MatMul"
  | nonZero => "NonZero"
  | oneHot _ => "OneHot"
  | pad _ => "Pad"
  | pool op => op.name
  | random op => op.name
  | range => "Range"
  | reduce op => op.name
  | reshape _ => "Reshape"
  | resize _ => "Resize"
  | scatterElements _ => "ScatterElements"
  | scatterND _ => "ScatterND"
  | shapeOf _ => "Shape"
  | sizeOf => "Size"
  | slice => "Slice"
  | softmax op => op.name
  | spaceToDepth _ => "SpaceToDepth"
  | split _ => "Split"
  | squeeze => "Squeeze"
  | tile => "Tile"
  | topK _ => "TopK"
  | transpose _ => "Transpose"
  | trilu _ => "Trilu"
  | unary f => f.name
  | unsqueeze => "Unsqueeze"
  | variadic f => f.name
  | select => "Where"

/-- The least and the greatest number of inputs, where omitted ones count; without a greatest number
there is no limit. -/
def arity : Operator → Nat × Option Nat
  | random op => if op.shape?.isSome then (0, some 0) else (1, some 1)
  | concat _ | variadic _ => (1, none)
  | argReduce _ | cast _ | constantOfShape _ | depthToSpace _ | eyeLike _ | flatten _
  | globalPool _ | identity | lrn _ | nonZero | pool _ | shapeOf _ | sizeOf | softmax _
  | spaceToDepth _ | transpose _ | unary _ => (1, some 1)
  | reduce _ | split _ | squeeze | trilu _ => (1, some 2)
  | clip => (1, some 3)
  | resize _ => (1, some 4)
  | binary _ | castLike | compress _ | cumSum _ | expand | gather _ | gatherElements _
  | gatherND _ | matMul | reshape _ | tile | topK _ | unsqueeze => (2, some 2)
  | conv _ | convTranspose _ | gemm _ | layerNormalization _ => (2, some 3)
  | pad _ => (2, some 4)
  | instanceNormalization _ | oneHot _ | range | scatterElements _ | scatterND _ | select =>
    (3, some 3)
  | slice => (3, some 5)
  | batchNormalization _ => (5, some 5)

/-- Refuses a number of inputs that the operator does not take. -/
def demandArity (op : Operator) (count : Nat) : Outcome RuleError Unit :=
  .refuseIf (count < op.arity.1 ∨ op.arity.2.any (· < count)) .inputCount

def outputCount : Operator → Nat
  | split op => op.count
  | topK _ => 2
  | _ => 1

/-- The inputs whose elements, rather than just their shapes, settle the shapes of the outputs. -/
def valueInputs : Operator → List Nat
  | constantOfShape _ => [0]
  | cumSum _ | expand | oneHot _ | reduce _ | reshape _ | split _ | squeeze | tile | topK _
  | unsqueeze => [1]
  | range => [0, 1, 2]
  | pad _ => [1, 3]
  | resize _ => [2, 3]
  | slice => [1, 2, 3, 4]
  | _ => []

/-- Whether the same inputs always give the same outputs. -/
def isDeterministic : Operator → Bool
  | random _ => false
  | _ => true

/-- Whether inference computes elements of the outputs: where its rule gives just what the kernel
gives for the small tensors whose elements are tracked. -/
def folds : Operator → Bool
  | unary f => f.folds
  | binary f => f.folds
  | variadic f => f.folds
  | reduce op => op.reduction.folds
  | cast _ | castLike | concat _ | constantOfShape _ | expand | flatten _ | gather _ | identity
  | range | reshape _ | shapeOf _ | sizeOf | slice | split _ | squeeze | transpose _
  | unsqueeze | select => true
  | _ => false

def infer : Operator → SymInputs → Outcome RuleError (List SymTensor)
  | argReduce op => op.infer
  | batchNormalization _ => BatchNormalization.infer
  | binary f => f.infer
  | cast wanted => Cast.infer wanted
  | castLike => Cast.inferLike
  | clip => Clip.infer
  | compress op => op.infer
  | concat op => op.infer
  | constantOfShape op => op.infer
  | conv op => op.infer
  | convTranspose op => op.infer
  | cumSum _ => CumSum.infer
  | depthToSpace op => op.infer
  | expand => Expand.infer
  | eyeLike op => op.infer
  | flatten op => op.infer
  | gather op => op.infer
  | gatherElements op => op.infer
  | gatherND op => op.infer
  | gemm op => op.infer
  | globalPool _ => GlobalPool.infer
  | identity => Reshaping.inferIdentity
  | instanceNormalization _ => InstanceNormalization.infer
  | layerNormalization op => op.infer
  | lrn op => op.infer
  | matMul => MatMul.infer
  | nonZero => NonZero.infer
  | oneHot op => op.infer
  | pad op => op.infer
  | pool op => op.infer
  | random op => op.infer
  | range => Range.infer
  | reduce op => op.infer
  | reshape op => op.infer
  | resize _ => Resize.infer
  | scatterElements op => op.infer
  | scatterND _ => ScatterND.infer
  | shapeOf op => op.infer
  | sizeOf => SizeOf.infer
  | slice => Slice.infer
  | softmax op => op.infer
  | spaceToDepth op => op.infer
  | split op => op.infer
  | squeeze => Squeeze.infer
  | tile => Tile.infer
  | topK op => op.infer
  | transpose op => op.infer
  | trilu _ => Trilu.infer
  | unary f => f.infer
  | unsqueeze => Unsqueeze.infer
  | variadic f => f.infer
  | select => Where.infer

/-- What is known of an input when the shapes of outputs are settled: its shape, and its elements if
they matter. -/
def describeInput (op : Operator) (input : Option Value × Nat) : Option SymTensor :=
  input.1.map fun v => if op.valueInputs.contains input.2 then v.toWhole else v.toShapeOnly

def inferredTypes (op : Operator) (inputs : ValueInputs) : Outcome OpError (List ValueType) := do
  let outputs ← (op.infer (inputs.zipIdx.map op.describeInput)).mapError OpError.ofRule
  .refuseIf (outputs.length ≠ op.outputCount) (.value .outputCount)
  outputs.mapM fun t => do
    return ⟨t.dtype, ← .orRefuse (.value .outputShape) t.shape.toShape?⟩

def outputTypes (op : Operator) (inputs : ValueInputs) : Outcome OpError (List ValueType) :=
  match op with
  | nonZero => NonZero.outputTypes inputs
  | compress c => c.outputTypes inputs
  | op => op.inferredTypes inputs

def checkedTypes (op : Operator) (inputs : ValueInputs) : Outcome OpError (List ValueType) := do
  (op.demandArity inputs.length).mapError OpError.ofRule
  op.outputTypes inputs

end Operator

end TensorGraph
