import TensorGraph.Operator.Kernel

/-!
Operators that measure a tensor: its sizes as a vector, and its element count.
-/

namespace TensorGraph

/-- The sizes of the dimensions from `start` up to `stop`, which count from the end where they are
negative. -/
structure ShapeOf where
  start : Option Int64
  stop : Option Int64
  deriving DecidableEq, Repr

namespace ShapeOf

/-- A bound counted from the end if it is negative, and held between zero and the rank. -/
def bound (rank : Nat) (n : Int64) : Nat :=
  let k := if n < 0 then n.toInt + rank else n.toInt
  min k.toNat rank

def range (op : ShapeOf) (rank : Nat) : Nat × Nat :=
  let start := op.start.elim 0 (bound rank)
  let stop := op.stop.elim rank (bound rank)
  (start, max start stop)

def infer (op : ShapeOf) (inputs : SymInputs) : Outcome RuleError (List SymTensor) := do
  let x ← inputs.demand 0
  match x.shape with
  | .unknown => return [.ofShape .int (.ranked [.unknown])]
  | .ranked ds =>
    let (start, stop) := op.range ds.length
    return [.ofSizes (.ranked ((ds.take stop).drop start))]

def prepare (op : ShapeOf) (inputs : ValueInputs) (outputs : List Value) :
    Outcome OpError Kernel := do
  let x ← inputs.demand 0
  let (start, stop) := op.range x.rank
  let out ← Kernel.single outputs
  return Kernel.intOutput out fun out =>
    .ok (out.overwrite (((x.shape.take stop).drop start).map intOfSize))

end ShapeOf

namespace SizeOf

def infer (inputs : SymInputs) : Outcome RuleError (List SymTensor) := do
  let x ← inputs.demand 0
  return [.scalar .int (.ofDim x.shape.count)]

def prepare (inputs : ValueInputs) (outputs : List Value) : Outcome OpError Kernel := do
  let x ← inputs.demand 0
  let out ← Kernel.single outputs
  return Kernel.intOutput out fun out => .ok (out.map fun _ => intOfSize x.count)

end SizeOf

end TensorGraph
