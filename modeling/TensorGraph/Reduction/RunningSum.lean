import TensorGraph.Operator.Kernel
import TensorGraph.Tensor

/-!
Running sums along an axis, which is given by the second input. Integers wrap around.
-/

namespace TensorGraph

structure CumSum where
  /-- Whether the element at the position itself is left out. -/
  exclusive : Bool
  /-- Whether the sums run from the end. -/
  reverse : Bool
  deriving DecidableEq, Repr

namespace CumSum

variable {ε α : Type}

def infer (inputs : SymInputs) : Outcome RuleError (List SymTensor) := do
  let x ← inputs.demand 0
  let axis ← inputs.demand 1
  match x.rank?, axis.singleInt? with
  | some rank, some axis =>
    let _ ← Axis.resolve rank axis
  | _, _ => pure ()
  return [x.sameShape x.dtype]

/-- The running sums of a lane, with the elements before it summed up to `total`. -/
def sums [Add α] (exclusive : Bool) : α → List (Index × α) → List (Index × α)
  | _, [] => []
  | total, (index, a) :: rest =>
    (index, if exclusive then total else total + a) :: sums exclusive (total + a) rest

/-- The elements of a lane in the order in which they are summed, as far as the output has their
positions. -/
def lane (op : CumSum) (x out : Tensor α) (dim : Nat) (start : Index) : List (Index × α) :=
  let order := List.range (x.shape.getD dim 0)
  (if op.reverse then order.reverse else order).filterMap fun i =>
    let index := start.set dim i
    if (out.offset? index).isSome then (x.get? index).map (index, ·) else none

def fill [Element α] [Add α] (op : CumSum) (x out : Tensor α) (dim : Nat) :
    Outcome ε (Tensor α) := do
  let starts ← x.laneStarts dim
  return out.write (starts.flatMap fun start =>
    sums op.exclusive Element.zero (op.lane x out dim start))

def prepare (op : CumSum) (inputs : ValueInputs) (outputs : List Value) :
    Outcome OpError Kernel := do
  let x ← inputs.demand 0
  let axis ← .orRefuse .missingInputs (← inputs.findInt? 1)
  let dim ← (Axis.resolve x.rank axis).mapError OpError.ofRule
  let out ← Kernel.single outputs
  return fun _ =>
    match x, out with
    | .float x, .float out => do Kernel.filled (← op.fill x out dim)
    | .int x, .int out => do Kernel.filled (← op.fill x out dim)
    | _, _ => .ok none

end CumSum

end TensorGraph
