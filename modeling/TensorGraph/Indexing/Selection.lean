import TensorGraph.Binary32.Functions
import TensorGraph.Indexing.Position

/-!
Encodings and selections by value: one-hot lanes of indices, the positions of non-zero elements,
and slices where a condition is not zero. The shapes of the last two depend on elements. The
positions of the elements that are not zero, as the columns of a matrix.
-/

namespace TensorGraph

/-- Lanes along a new axis that hold one value at the position of an index and another elsewhere. -/
structure OneHot where
  axis : Int64
  deriving DecidableEq, Repr

namespace OneHot

variable {ε α : Type}

def depthDim (depth : SymTensor) : Outcome RuleError SymDim :=
  match depth.single? with
  | some (.int n) => if n < 1 then .error (.value .depth) else .ok (.size n)
  | some (.float bits) => .ok (.size (Binary32.toInt (.ofBits bits)))
  | some e => .ok e.toDim
  | none => .ok .unknown

def infer (op : OneHot) (inputs : SymInputs) : Outcome RuleError (List SymTensor) := do
  let indices ← inputs.demand 0
  let depth ← inputs.demand 1
  let values ← inputs.demand 2
  Indexing.demandInts indices
  let _ ← ((← values.shape.declareRank 1).dim 0).refine (.size 2)
  let depth ← depthDim depth
  match indices.shape with
  | .unknown => return [.unranked values.dtype]
  | .ranked ds =>
    let dim ← Axis.resolve (ds.length + 1) op.axis
    return [.ofShape values.dtype (.ranked (ds.take dim ++ depth :: ds.drop dim))]

/-- The element at a position of the output. An index that is missing counts as the last. -/
def element (indices : Tensor Int64) (off on : α) (dim : Nat) (depth : Int64) (position : Index) :
    Outcome ε α := do
  let index := (indices.get? (position.take dim ++ position.drop (dim + 1))).getD (-1)
  let index ← if index < 0 then checkInt (index.toInt + depth.toInt) else .ok index
  return if index = intOfSize (position.getD dim 0) then on else off

def fill (indices : Tensor Int64) (off on : α) (dim : Nat) (out : Tensor α) :
    Outcome ε (Tensor α) := do
  let depth := intOfSize (← out.size dim)
  let positions ← Index.checkedAll out.shape
  return out.overwrite (← positions.mapM (element indices off on dim depth))

def prepare (op : OneHot) (inputs : ValueInputs) (outputs : List Value) :
    Outcome OpError Kernel := do
  let indices ← inputs.demand 0
  let values ← inputs.demand 2
  let dim ← (Axis.resolve (indices.rank + 1) op.axis).mapError OpError.ofRule
  let out ← Kernel.single outputs
  return fun _ => do
    let indices ← Kernel.typed Int64 indices
    Kernel.sameType values out (fun values out =>
      match values.data with
      | [off, on] => fill indices off on dim out
      | _ => .error (.value .twoElements)) ()

end OneHot

namespace NonZero

variable {ε α : Type}

def infer (inputs : SymInputs) : Outcome RuleError (List SymTensor) := do
  let x ← inputs.demand 0
  let rank := x.rank?.elim .unknown SymDim.ofSize
  return [.ofShape .int (.ranked [rank, .unknown])]

/-- The positions of the elements that are not zero, in row-major order. A NaN is not zero. -/
def positions [Element α] (x : Tensor α) : List Index :=
  ((Index.all x.shape).zip x.data).filterMap fun (index, a) =>
    if Element.same a Element.zero then none else some index

def count (x : Value) : Nat :=
  match x with
  | .float x => (positions x).length
  | .int x => (positions x).length

def outputTypes (inputs : ValueInputs) : Outcome OpError (List ValueType) := do
  let x ← inputs.demand 0
  return [⟨.int, [x.rank, count x]⟩]

def fill [Element α] (x : Tensor α) (out : Tensor Int64) : Outcome ε (Tensor Int64) := do
  let columns ← out.size 1
  let _ ← Layout.checkedCount x.shape
  let entries := (positions x).zipIdx.flatMap fun (index, column) =>
    index.zipIdx.map fun (i, row) => (row * columns + column, intOfSize i)
  entries.foldlM (fun out (place, i) => out.writeAt place [i]) out

def prepare (inputs : ValueInputs) (outputs : List Value) : Outcome OpError Kernel := do
  let x ← inputs.demand 0
  let out ← Kernel.single outputs
  return Kernel.intOutput out fun out =>
    match x with
    | .float x => fill x out
    | .int x => fill x out

end NonZero

/-- Slices along an axis where a condition is not zero, or elements if no axis is given. -/
structure Compress where
  axis : Option Int64
  deriving DecidableEq, Repr

namespace Compress

variable {ε α : Type}

def infer (op : Compress) (inputs : SymInputs) : Outcome RuleError (List SymTensor) := do
  let x ← inputs.demand 0
  let condition ← inputs.demand 1
  Indexing.demandInts condition
  let _ ← condition.shape.declareRank 1
  match op.axis, x.shape with
  | none, _ => return [.ofShape x.dtype (.ranked [.unknown])]
  | some axis, .ranked ds =>
    let dim ← Axis.resolve ds.length axis
    return [.ofShape x.dtype (.ranked (ds.set dim .unknown))]
  | some _, .unknown => return [.unranked x.dtype]

def dim? (op : Compress) (x : Value) : Outcome OpError (Option Nat) :=
  match op.axis with
  | none => .ok none
  | some axis => return some (← (Axis.resolve x.rank axis).mapError OpError.ofRule)

def selected (condition : List Int64) : List Nat :=
  condition.zipIdx.filterMap fun (c, i) => if c ≠ 0 then some i else none

def outputTypes (op : Compress) (inputs : ValueInputs) : Outcome OpError (List ValueType) := do
  let x ← inputs.demand 0
  let condition ← inputs.demand 1
  let condition ← (condition.cast Int64).mapError (.inputCast 1)
  .refuseIf (condition.rank ≠ 1) (.rank .conditionRank)
  let dim ← op.dim? x
  let limit := dim.elim x.count (x.shape.getD · 0)
  .refuseIf (condition.count > limit) (.value .longCondition)
  let count := (selected condition.data).length
  return [⟨x.dtype, dim.elim [count] (x.shape.set · count)⟩]

def fill (x : Tensor α) (condition : List Int64) (dim : Option Nat) (out : Tensor α) :
    Outcome ε (Tensor α) := do
  let chosen := selected condition
  match dim with
  | none =>
    return out.overwrite (← (chosen.take out.count).mapM fun i => .ofOption x.data[i]?)
  | some dim =>
    let (outer, inner) ← x.outerInner dim
    let size ← x.size dim
    out.writeBlocks ((List.range outer).flatMap fun i => chosen.map fun k =>
      x.block ((i * size + k) * inner) inner)

def prepare (op : Compress) (inputs : ValueInputs) (outputs : List Value) :
    Outcome OpError Kernel := do
  let x ← inputs.demand 0
  let condition ← inputs.demand 1
  let dim ← op.dim? x
  let out ← Kernel.single outputs
  return fun _ => do
    let condition ← Kernel.typed Int64 condition
    Kernel.sameType x out (fun x out => fill x condition.data dim out) ()

end Compress

end TensorGraph
