import TensorGraph.Operator.Kernel

/-!
Positions that indices denote along a dimension, where negative ones count from the end, and blocks
of elements that are written one after the other.
-/

namespace TensorGraph

namespace Indexing

def resolve (size : Nat) (index : Int64) : Outcome OpError Nat := do
  let limit := intOfSize size
  let position ← if index < 0 then checkInt (index.toInt + limit.toInt) else .ok index
  if position < 0 ∨ position ≥ limit then .error (.value .indexRange)
  else return sizeOfInt position

def demandInts (indices : SymTensor) : Outcome RuleError Unit :=
  .refuseIf (indices.dtype ≠ .int) (.type .indices)

end Indexing

namespace Tensor

variable {ε α : Type}

/-- The tensor with the given blocks in place of its first elements. A block is written before the
next one is computed. -/
def writeBlocks (t : Tensor α) (blocks : List (Outcome ε (List α))) : Outcome ε (Tensor α) := do
  let (t, _) ← blocks.foldlM
    (fun (t, start) block => do
      let b ← block
      return (← t.writeAt start b, start + b.length))
    (t, 0)
  return t

/-- The products of the sizes before and after a dimension, which have to fit in 64 bits. -/
def outerInner (t : Tensor α) (dim : Nat) : Outcome ε (Nat × Nat) := do
  let outer ← Layout.checkedCount (t.shape.take dim)
  let inner ← Layout.checkedCount (t.shape.drop (dim + 1))
  return (outer, inner)

end Tensor

end TensorGraph
