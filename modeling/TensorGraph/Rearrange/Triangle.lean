import TensorGraph.Operator.Kernel

/-!
The upper or lower triangle of the matrices in the last two dimensions, with zeros elsewhere. The
second input moves the diagonal.
-/

namespace TensorGraph

structure Trilu where
  upper : Bool
  deriving DecidableEq, Repr

namespace Trilu

variable {ε α : Type}

def infer (inputs : SymInputs) : Outcome RuleError (List SymTensor) := do
  let x ← inputs.demand 0
  x.shape.demandRank 2
  .refuseIf ((inputs.find? 1).any (·.dtype ≠ .int)) (.type .diagonal)
  return [x.sameShape x.dtype]

/-- Whether an element belongs to the triangle beside the `k`th diagonal. -/
def keeps (op : Trilu) (k : Int64) (row column : Nat) : Bool :=
  let offset := (column : Int) - row
  if op.upper then offset ≥ k.toInt else offset ≤ k.toInt

def fill [Element α] (op : Trilu) (k : Int64) (x out : Tensor α) : Outcome ε (Tensor α) := do
  let rows ← x.size (← checkSub x.rank 2)
  let columns ← x.size (← checkSub x.rank 1)
  let area ← checkSize (rows * columns)
  if area = 0 then return out
  else
    .demand (x.count ≤ out.count ∨ out.count % area = 0)
    return out.overwrite (x.data.zipIdx.map fun (a, i) =>
      if op.keeps k (i % area / columns) (i % area % columns) then a else Element.zero)

def prepare (op : Trilu) (inputs : ValueInputs) (outputs : List Value) :
    Outcome OpError Kernel := do
  let x ← inputs.demand 0
  let k := (← inputs.findInt? 1).getD 0
  let out ← Kernel.single outputs
  return Kernel.sameType x out fun x out => op.fill k x out

end Trilu

end TensorGraph
