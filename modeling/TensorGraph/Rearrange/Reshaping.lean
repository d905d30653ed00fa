import TensorGraph.Operator.Kernel
import TensorGraph.Symbolic.Reshape

/-!
Operators that keep the elements in order and change the shape alone. One kernel copies the elements
for all of them; the shape is settled by inference.
-/

namespace TensorGraph

def SymTensor.demandIntVector (t : SymTensor) : Outcome RuleError Unit := do
  .refuseIf (t.dtype ≠ .int) (.type .intTensor)
  let _ ← t.shape.declareRank 1

namespace Reshaping

/-- Copies the first input into the output. -/
def prepare (inputs : ValueInputs) (outputs : List Value) : Outcome OpError Kernel := do
  let x ← inputs.demand 0
  return Kernel.copy x (← Kernel.single outputs)

def inferIdentity (inputs : SymInputs) : Outcome RuleError (List SymTensor) := do
  return [← inputs.demand 0]

end Reshaping

structure Reshape where
  /-- Whether a zero is a size, rather than a copy of the size in the input. -/
  allowZero : Bool
  deriving DecidableEq, Repr

def Reshape.infer (op : Reshape) (inputs : SymInputs) : Outcome RuleError (List SymTensor) := do
  let x ← inputs.demand 0
  let shape ← inputs.demand 1
  shape.demandIntVector
  let target ← shape.toSizes
  return [x.reshaped (← x.shape.reshape target op.allowZero)]

/-- A matrix whose rows join the dimensions before an axis. -/
structure Flatten where
  axis : Int64
  deriving DecidableEq, Repr

/-- The axis may lie after the last dimension. -/
def Flatten.infer (op : Flatten) (inputs : SymInputs) : Outcome RuleError (List SymTensor) := do
  let x ← inputs.demand 0
  match x.shape with
  | .unknown => return [.ofShape x.dtype (.ofRank 2)]
  | .ranked ds =>
    let rank := intOfSize ds.length
    let axis ← if op.axis < 0 then checkInt (op.axis.toInt + rank.toInt) else .ok op.axis
    .refuseIf (axis < 0 ∨ rank < axis) (.rank .axisRange)
    let dim := sizeOfInt axis
    return [x.reshaped (.ranked [SymDim.product (ds.take dim), SymDim.product (ds.drop dim)])]

namespace Squeeze

/-- The dimensions that are left when the given ones, whose sizes must not be known to be other than
one, are removed. -/
def remove (ds : List SymDim) (axes : List Int64) : Outcome RuleError SymShape := do
  let dims ← Axis.resolveAll ds.length axes
  .refuseIf (dims.any fun k => (ds.getD k .unknown).value?.any (· ≠ 1)) (.shape .squeezedSize)
  return .ranked (ds.zipIdx.filterMap fun (d, k) => if dims.contains k then none else some d)

/-- All dimensions that are not one, if every size is known; any other might be one. -/
def removeOnes (ds : List SymDim) : SymShape :=
  if ds.all (·.isSize) then .ranked (ds.filter (· ≠ .size 1)) else .unknown

/-- The result when only the number of removed dimensions may be known. -/
def removeSome (ds : List SymDim) (axes : SymTensor) : SymShape :=
  match (axes.shape.dim 0).value? with
  | some n => if sizeOfInt n ≤ ds.length then .ofRank (ds.length - sizeOfInt n) else .unknown
  | none => .unknown

def outputShape (ds : List SymDim) (axes : Option SymTensor) : Outcome RuleError SymShape :=
  match axes with
  | none => .ok (removeOnes ds)
  | some axes => do
    axes.demandIntVector
    match axes.ints? with
    | some ns => remove ds ns
    | none => return removeSome ds axes

def infer (inputs : SymInputs) : Outcome RuleError (List SymTensor) := do
  let x ← inputs.demand 0
  match x.shape with
  | .unknown => return [.unranked x.dtype]
  | .ranked ds => return [x.reshaped (← outputShape ds (inputs.find? 1))]

end Squeeze

namespace Unsqueeze

/-- The dimensions from position `k` on of a shape of `rank` dimensions, which is one at `ones` and
takes the others in order. -/
def insertOnes (ones : List Nat) : Nat → Nat → List SymDim → List SymDim
  | 0, _, _ => []
  | rank + 1, k, ds =>
    if ones.contains k then .size 1 :: insertOnes ones rank (k + 1) ds
    else ds.headD .unknown :: insertOnes ones rank (k + 1) ds.tail

def outputShape (s : SymShape) (axes : SymTensor) : Outcome RuleError SymShape :=
  match s, axes.ints? with
  | .unknown, _ => .ok .unknown
  | .ranked ds, some ns => do
    let rank := ds.length + ns.length
    let ones ← Axis.resolveAll rank ns
    checkRoom rank SymDim.bytes
    return .ranked (insertOnes ones rank 0 ds)
  | .ranked ds, none =>
    match (axes.shape.dim 0).value? with
    | some n => do SymShape.ofLargeRank (← checkSize (ds.length + sizeOfInt n))
    | none => .ok .unknown

def infer (inputs : SymInputs) : Outcome RuleError (List SymTensor) := do
  let x ← inputs.demand 0
  let axes ← inputs.demand 1
  axes.demandIntVector
  return [x.reshaped (← outputShape x.shape axes)]

end Unsqueeze

end TensorGraph
