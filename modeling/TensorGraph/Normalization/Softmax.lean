import TensorGraph.Operator.Kernel
import TensorGraph.Tensor

/-!
Lanes of numbers along an axis as weights: exponentials that sum to one, their logarithms, or a one
at the first greatest number.
-/

namespace TensorGraph

namespace Normalization

/-- Refuses what is no tensor of numbers or has too few dimensions; the result has its shape. -/
def demandFloat (x : SymTensor) (leastRank : Nat) : Outcome RuleError SymTensor := do
  .refuseIf (x.dtype ≠ .float) (.type .floatTensor)
  x.shape.demandRank leastRank
  return x.sameShape .float

end Normalization

inductive Weighting where
  | softmax
  | logSoftmax
  | hardmax
  deriving DecidableEq, Repr

structure Softmax where
  weighting : Weighting
  axis : Int64
  deriving DecidableEq, Repr

namespace Softmax

def name (op : Softmax) : String :=
  match op.weighting with
  | .softmax => "Softmax"
  | .logSoftmax => "LogSoftmax"
  | .hardmax => "Hardmax"

def infer (op : Softmax) (inputs : SymInputs) : Outcome RuleError (List SymTensor) := do
  let x ← inputs.demand 0
  let output ← Normalization.demandFloat x 1
  match x.rank? with
  | some rank =>
    let _ ← Axis.resolve rank op.axis
  | none => pure ()
  return [output]

/-- The weights of a lane. Exponents are taken relative to the greatest number. -/
def weights (w : Weighting) (xs : List Float32) : List Float32 :=
  let top := xs.foldl Binary32.max Binary32.negInfinity
  let total := Binary32.sum (xs.map fun x => (x - top).exp)
  match w with
  | .softmax => xs.map fun x => (x - top).exp / total
  | .logSoftmax => xs.map fun x => x - top - total.log
  | .hardmax =>
    let first := xs.findIdx? (· == top)
    xs.zipIdx.map fun (_, i) => if first = some i then 1 else 0

def fill {ε : Type} (w : Weighting) (x : Tensor Float32) (dim : Nat) (out : Tensor Float32) :
    Outcome ε (Tensor Float32) := do
  checkRoom (← x.size dim) DataType.float.bytes
  let starts ← x.laneStarts dim
  return out.write ((starts.zip (← x.lanes [dim])).flatMap fun (start, lane) =>
    (weights w lane).zipIdx.map fun (a, i) => (start.set dim i, a))

def prepare (op : Softmax) (inputs : ValueInputs) (outputs : List Value) :
    Outcome OpError Kernel := do
  let x ← inputs.demand 0
  let dim ← (Axis.resolve x.rank op.axis).mapError OpError.ofRule
  let out ← Kernel.single outputs
  return Kernel.floatOnly x out fun x out => fill op.weighting x dim out

end Softmax

end TensorGraph
