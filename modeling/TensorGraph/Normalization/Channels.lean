import TensorGraph.Normalization.Softmax

/-!
Normalization of channels, which are the second dimension: by given statistics, by the statistics
of each channel of each item, or by the squares in neighbouring channels. Layers are normalized
over the dimensions from an axis on, with a scale and a shift that broadcast to the shape of these
dimensions.
-/

namespace TensorGraph

namespace Normalization

variable {ε : Type}

def demandPerChannel (channels : Nat) (params : List (List Float32)) : Outcome OpError Unit :=
  .refuseIf (params.any (·.length ≠ channels)) (.shape .channelCount)

/-- Numbers brought to mean zero and variance one, then scaled and shifted by `affine i` at
position `i`. -/
def standardize (epsilon : Float32) (affine : Nat → Float32 × Float32) (xs : List Float32) :
    List Float32 :=
  let n := Binary32.ofNat xs.length
  let mean := Binary32.sum xs / n
  let variance := Binary32.sum (xs.map fun x => (x - mean) * (x - mean)) / n
  let scale := 1 / (variance + epsilon).sqrt
  xs.zipIdx.map fun (x, i) => (x - mean) * scale * (affine i).1 + (affine i).2

/-- Consecutive chunks of `length` items; the fuel bounds their number. -/
def chunks {α : Type} (length : Nat) : Nat → List α → List (List α)
  | 0, _ => []
  | _, [] => []
  | fuel + 1, xs => xs.take length :: chunks length fuel (xs.drop length)

/-- The output with the elements of `x`, of which there have to be as many. -/
def demandSameCount (x out : Tensor Float32) : Outcome ε Unit :=
  .demand (out.count = x.count)

end Normalization

structure BatchNormalization where
  epsilon : Float32
  deriving DecidableEq, Repr

namespace BatchNormalization

def infer (inputs : SymInputs) : Outcome RuleError (List SymTensor) := do
  let x ← inputs.demand 0
  for i in [1, 2, 3, 4] do
    let _ ← (← inputs.demand i).shape.declareRank 1
  return [← Normalization.demandFloat x 2]

def fill (op : BatchNormalization) (scale bias mean variance : List Float32)
    (x out : Tensor Float32) : Outcome OpError (Tensor Float32) := do
  let channels ← x.size 1
  Normalization.demandPerChannel channels [scale, bias, mean, variance]
  let y ← x.mapIndexedM fun index a => do
    let c := index.getD 1 0
    let mean ← .ofOption mean[c]?
    let variance ← .ofOption variance[c]?
    let scale ← .ofOption scale[c]?
    let bias ← .ofOption bias[c]?
    return (a - mean) / (variance + op.epsilon).sqrt * scale + bias
  return out.overwrite y.data

def prepare (op : BatchNormalization) (inputs : ValueInputs) (outputs : List Value) :
    Outcome OpError Kernel := do
  let x ← inputs.demand 0
  let scale ← inputs.demand 1
  let bias ← inputs.demand 2
  let mean ← inputs.demand 3
  let variance ← inputs.demand 4
  let out ← Kernel.single outputs
  return fun _ => do
    let scale ← Kernel.typed Float32 scale
    let bias ← Kernel.typed Float32 bias
    let mean ← Kernel.typed Float32 mean
    let variance ← Kernel.typed Float32 variance
    Kernel.floatOnly x out (op.fill scale.data bias.data mean.data variance.data) ()

end BatchNormalization

structure InstanceNormalization where
  epsilon : Float32
  deriving DecidableEq, Repr

namespace InstanceNormalization

def infer (inputs : SymInputs) : Outcome RuleError (List SymTensor) := do
  let x ← inputs.demand 0
  let _ ← (← inputs.demand 1).shape.declareRank 1
  let _ ← (← inputs.demand 2).shape.declareRank 1
  return [← Normalization.demandFloat x 3]

def fill (op : InstanceNormalization) (scale bias : List Float32) (x out : Tensor Float32) :
    Outcome OpError (Tensor Float32) := do
  let channels ← x.size 1
  Normalization.demandPerChannel channels [scale, bias]
  let length ← Layout.checkedCount (x.shape.drop 2)
  Normalization.demandSameCount x out
  if length = 0 then return out.overwrite x.data
  else
    let pieces ← (Normalization.chunks length x.count x.data).zipIdx.mapM fun (piece, i) => do
      let scale ← .ofOption scale[i % channels]?
      let bias ← .ofOption bias[i % channels]?
      return Normalization.standardize op.epsilon (fun _ => (scale, bias)) piece
    return out.overwrite pieces.flatten

def prepare (op : InstanceNormalization) (inputs : ValueInputs) (outputs : List Value) :
    Outcome OpError Kernel := do
  let x ← inputs.demand 0
  let scale ← inputs.demand 1
  let bias ← inputs.demand 2
  let out ← Kernel.single outputs
  return fun _ => do
    let scale ← Kernel.typed Float32 scale
    let bias ← Kernel.typed Float32 bias
    Kernel.floatOnly x out (op.fill scale.data bias.data) ()

end InstanceNormalization

/-- Normalization of each element by the squares in `size` neighbouring channels. -/
structure Lrn where
  alpha : Float32
  beta : Float32
  bias : Float32
  size : Nat
  deriving DecidableEq, Repr

namespace Lrn

variable {ε : Type}

def infer (op : Lrn) (inputs : SymInputs) : Outcome RuleError (List SymTensor) := do
  let x ← inputs.demand 0
  .refuseIf (op.size = 0) (.value .zeroSize)
  return [← Normalization.demandFloat x 2]

/-- The channels around `c`, of which one more follows than precedes if the size is even. -/
def neighbours (op : Lrn) (channels c : Nat) : List Nat :=
  let start := c - (op.size - 1) / 2
  let stop := min (c + op.size / 2 + 1) channels
  List.range' start (stop - start)

def fill (op : Lrn) (x out : Tensor Float32) : Outcome ε (Tensor Float32) := do
  let channels ← x.size 1
  .demand (op.size > 0)
  let y := x.mapIndexed fun index a =>
    let squares := (op.neighbours channels (index.getD 1 0)).filterMap fun i =>
      (x.get? (index.set 1 i)).map fun b => b * b
    a / (op.bias + op.alpha / Binary32.ofNat op.size * Binary32.sum squares).pow op.beta
  return out.overwrite y.data

def prepare (op : Lrn) (inputs : ValueInputs) (outputs : List Value) : Outcome OpError Kernel := do
  let x ← inputs.demand 0
  let out ← Kernel.single outputs
  return Kernel.floatOnly x out op.fill

end Lrn

structure LayerNormalization where
  axis : Int64
  epsilon : Float32
  deriving DecidableEq, Repr

namespace LayerNormalization

def infer (op : LayerNormalization) (inputs : SymInputs) : Outcome RuleError (List SymTensor) := do
  let x ← inputs.demand 0
  let _ ← inputs.demand 1
  let output ← Normalization.demandFloat x 1
  match x.rank? with
  | some rank =>
    let _ ← Axis.resolve rank op.axis
  | none => pure ()
  return [output]

def fill (op : LayerNormalization) (dim : Nat) (scale : Tensor Float32)
    (bias : Option (Tensor Float32)) (x out : Tensor Float32) :
    Outcome OpError (Tensor Float32) := do
  let inner := x.shape.drop dim
  let fits (t : Tensor Float32) := Layout.canBroadcast t.shape inner
  .refuseIf (!fits scale || bias.any fun b => !fits b) (.shape .normalizedShape)
  let scale ← scale.broadcastElements inner
  let bias ← match bias with
    | some b => b.broadcastElements inner
    | none => .ok (List.replicate scale.length 0)
  Normalization.demandSameCount x out
  let affine (i : Nat) := (scale.getD i 0, bias.getD i 0)
  if scale.length = 0 then return out.overwrite x.data
  else
    return out.overwrite ((Normalization.chunks scale.length x.count x.data).flatMap
      (Normalization.standardize op.epsilon affine))

def prepare (op : LayerNormalization) (inputs : ValueInputs) (outputs : List Value) :
    Outcome OpError Kernel := do
  let x ← inputs.demand 0
  let scale ← inputs.demand 1
  let dim ← (Axis.resolve x.rank op.axis).mapError OpError.ofRule
  let out ← Kernel.single outputs
  return fun _ => do
    let scale ← Kernel.typed Float32 scale
    let bias ← Kernel.typed? Float32 (inputs.find? 2)
    Kernel.floatOnly x out (op.fill dim scale bias) ()

end LayerNormalization

end TensorGraph
