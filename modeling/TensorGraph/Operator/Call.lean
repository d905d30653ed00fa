import TensorGraph.Operator.Basic

/-!
Operators applied to values. A call has its inputs and outputs at hand and what depends on sizes
resolved; what runs it decides whether it covers the call.
-/

namespace TensorGraph

/-- An operator applied to inputs and zeroed outputs, with the kernel that fills these. -/
structure Call where
  op : Operator
  inputs : ValueInputs
  outputs : List Value
  kernel : Kernel

def Call.run (c : Call) : Filled := c.kernel ()

namespace Operator

/-- The kernel of an operator on the reference backend, for the numbers that it may draw. -/
def prepare (op : Operator) (draws : Draws) (inputs : ValueInputs) (outputs : List Value) :
    Outcome OpError Kernel :=
  match op with
  | argReduce op => op.prepare inputs outputs
  | batchNormalization op => op.prepare inputs outputs
  | binary f => do
    let a ← inputs.demand 0
    let b ← inputs.demand 1
    return f.kernel a b (← Kernel.single outputs)
  | cast _ | castLike => Cast.prepare inputs outputs
  | clip => Clip.prepare inputs outputs
  | compress op => op.prepare inputs outputs
  | concat op => op.prepare inputs outputs
  | constantOfShape op => op.prepare outputs
  | conv op => op.prepare inputs outputs
  | convTranspose op => op.prepare inputs outputs
  | cumSum op => op.prepare inputs outputs
  | depthToSpace op => op.prepare inputs outputs
  | expand => Expand.prepare inputs outputs
  | eyeLike op => op.prepare outputs
  | flatten _ | identity | reshape _ | squeeze | unsqueeze => Reshaping.prepare inputs outputs
  | gather op => op.prepare inputs outputs
  | gatherElements op => op.prepare inputs outputs
  | gatherND op => op.prepare inputs outputs
  | gemm op => op.prepare inputs outputs
  | globalPool op => op.prepare inputs outputs
  | instanceNormalization op => op.prepare inputs outputs
  | layerNormalization op => op.prepare inputs outputs
  | lrn op => op.prepare inputs outputs
  | matMul => MatMul.prepare inputs outputs
  | nonZero => NonZero.prepare inputs outputs
  | oneHot op => op.prepare inputs outputs
  | pad op => op.prepare inputs outputs
  | pool op => op.prepare inputs outputs
  | random op => op.prepare draws inputs outputs
  | range => Range.prepare inputs outputs
  | reduce op => op.prepare inputs outputs
  | resize op => op.prepare inputs outputs
  | scatterElements op => op.prepare inputs outputs
  | scatterND op => op.prepare inputs outputs
  | shapeOf op => op.prepare inputs outputs
  | sizeOf => SizeOf.prepare inputs outputs
  | slice => Slice.prepare inputs outputs
  | softmax op => op.prepare inputs outputs
  | spaceToDepth op => op.prepare inputs outputs
  | split op => op.prepare inputs outputs
  | tile => Tile.prepare inputs outputs
  | topK op => op.prepare inputs outputs
  | transpose op => op.prepare inputs outputs
  | trilu op => op.prepare inputs outputs
  | unary f => do
    let x ← inputs.demand 0
    return f.kernel x (← Kernel.single outputs)
  | variadic f => f.prepare inputs outputs
  | select => Where.prepare inputs outputs

/-- The operator and its inputs with what depends on sizes resolved: how windows move, and the pads
of all dimensions. -/
def resolve (op : Operator) (inputs : ValueInputs) (outputs : List Value) :
    Outcome OpError (Operator × ValueInputs) :=
  match op with
  | conv op => do return (conv (← op.resolve inputs outputs), inputs)
  | convTranspose op => do return (convTranspose (← op.resolve inputs outputs), inputs)
  | pad op => do return (pad op, ← Pad.resolve inputs)
  | pool op => do return (pool (← op.resolve inputs outputs), inputs)
  | op => .ok (op, inputs)

def call (op : Operator) (draws : Draws) (inputs : ValueInputs) (outputs : List Value) :
    Outcome OpError Call := do
  let kernel ← op.prepare draws inputs outputs
  let (op, inputs) ← op.resolve inputs outputs
  return ⟨op, inputs, outputs, kernel⟩

end Operator

end TensorGraph
