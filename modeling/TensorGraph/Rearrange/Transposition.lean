import TensorGraph.Rearrange.Reshaping
import TensorGraph.Symbolic.Tensor

/-!
Operators that reorder dimensions, and those that read a tensor as one of a larger shape, which
the second input lists.
-/

namespace TensorGraph

/-- The dimensions in another order, which is the reverse one if none is given. -/
structure Transpose where
  perm : Option (List Nat)
  deriving DecidableEq, Repr

namespace Transpose

def order (op : Transpose) (rank : Nat) : Outcome RuleError (List Nat) :=
  match op.perm with
  | some perm =>
    if Layout.isPermutation rank perm then .ok perm else .error (.value .permutation)
  | none => .ok (List.range rank).reverse

/-- Elements are tracked for at most one dimension, so they keep their order. -/
def infer (op : Transpose) (inputs : SymInputs) : Outcome RuleError (List SymTensor) := do
  let x ← inputs.demand 0
  match x.shape with
  | .unknown =>
    return [.ofShape x.dtype (op.perm.elim .unknown fun perm => .ofRank perm.length)]
  | .ranked ds =>
    let perm ← op.order ds.length
    return [x.reshaped (.ranked (perm.map fun k => ds.getD k .unknown))]

def prepare (op : Transpose) (inputs : ValueInputs) (outputs : List Value) :
    Outcome OpError Kernel := do
  let x ← inputs.demand 0
  let perm ← (op.order x.rank).mapError OpError.ofRule
  let out ← Kernel.single outputs
  return Kernel.sameType x out fun x out => do
    let y ← x.permuted perm
    .refuseIf (y.count ≠ out.count) (.shape .lengthsDiffer)
    return out.overwrite y.data

end Transpose

namespace Expand

/-- The result has the common shape of the input and the target. -/
def infer (inputs : SymInputs) : Outcome RuleError (List SymTensor) := do
  let x ← inputs.demand 0
  let shape ← inputs.demand 1
  shape.demandIntVector
  let target ← shape.toSizes
  let output := SymTensor.ofShape x.dtype (← SymShape.broadcast [x.shape, target])
  return [output.fillFrom [x] x.readAt]

def prepare (inputs : ValueInputs) (outputs : List Value) : Outcome OpError Kernel := do
  let x ← inputs.demand 0
  let out ← Kernel.single outputs
  return Kernel.sameType x out fun x out => do
    return out.overwrite (← x.broadcastElements out.shape)

end Expand

end TensorGraph
