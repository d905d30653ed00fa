import TensorGraph.Operator.Kernel
import TensorGraph.Tensor

/-!
Moves between channels and square blocks of an image. An array has the dimensions item, channel, row
and column; a block of `b * b` pixels corresponds to `b * b` channels.
-/

namespace TensorGraph

/-- Which channels belong to one block: those that lie apart by the number of channels of the
result, or those that follow each other. -/
inductive ChannelOrder where
  | depthColumnRow
  | columnRowDepth
  deriving DecidableEq, Repr

namespace ChannelOrder

variable {ε : Type}

/-- The channel that holds the pixel in row `i` and column `j` of the block of channel `c`. -/
def channel (order : ChannelOrder) (c i j block channels : Nat) : Outcome ε Nat :=
  match order with
  | depthColumnRow => do
    let row ← checkSize (i * block)
    let pixel ← checkSize (row + j)
    checkSize ((← checkSize (pixel * channels)) + c)
  | columnRowDepth => do
    let group ← checkSize ((← checkSize (c * block)) * block)
    let row ← checkSize (i * block)
    checkSize ((← checkSize (group + row)) + j)

end ChannelOrder

namespace Blocks

variable {ε : Type}

/-- Item, channel, row and column of a position, which has to have them. -/
def coordinates (index : Index) : Outcome ε (Nat × Nat × Nat × Nat) :=
  match index with
  | n :: c :: h :: w :: _ => .ok (n, c, h, w)
  | _ => .fault

def dims (x : SymTensor) (block : Nat) : Outcome RuleError (SymDim × SymDim × SymDim × SymDim) := do
  .refuseIf (block = 0) (.value .zeroBlock)
  let s ← x.shape.declareRank 4
  return (s.dim 0, s.dim 1, s.dim 2, s.dim 3)

def demandMultiple (d : SymDim) (divisor : Nat) : Outcome RuleError Unit :=
  match d.value? with
  | none => .ok ()
  | some n => do .refuseIf ((← remInt n (intOfSize divisor)) ≠ 0) (.shape .blockSize)

def area (block : Nat) : Outcome ε SymDim := do
  let b := (intOfSize block).toInt
  return .size (← checkInt (b * b))

end Blocks

structure DepthToSpace where
  block : Nat
  order : ChannelOrder
  deriving DecidableEq, Repr

namespace DepthToSpace

variable {ε α : Type}

def infer (op : DepthToSpace) (inputs : SymInputs) : Outcome RuleError (List SymTensor) := do
  let x ← inputs.demand 0
  let (n, c, h, w) ← Blocks.dims x op.block
  Blocks.demandMultiple c (← checkSize (op.block * op.block))
  let c ← c.floorDiv (← Blocks.area op.block)
  let b := SymDim.ofSize op.block
  return [.ofShape x.dtype (.ranked [n, c, h * b, w * b])]

/-- The position of the input that a position of the output is read from. -/
def source (op : DepthToSpace) (channels : Nat) (index : Index) : Outcome ε Index := do
  let (n, c, h, w) ← Blocks.coordinates index
  .demand (op.block ≠ 0)
  let b := op.block
  let k ← op.order.channel c (h % b) (w % b) b channels
  return [n, k, h / b, w / b]

def fill (op : DepthToSpace) (x out : Tensor α) : Outcome ε (Tensor α) := do
  let channels ← out.size 1
  out.mapIndexedM fun index old => do
    return (x.get? (← op.source channels index)).getD old

def prepare (op : DepthToSpace) (inputs : ValueInputs) (outputs : List Value) :
    Outcome OpError Kernel := do
  let x ← inputs.demand 0
  let out ← Kernel.single outputs
  return Kernel.sameType x out fun x out => op.fill x out

end DepthToSpace

/-- Blocks of pixels moved into channels that lie apart by the number of channels of the input. -/
structure SpaceToDepth where
  block : Nat
  deriving DecidableEq, Repr

namespace SpaceToDepth

variable {ε α : Type}

def infer (op : SpaceToDepth) (inputs : SymInputs) : Outcome RuleError (List SymTensor) := do
  let x ← inputs.demand 0
  let (n, c, h, w) ← Blocks.dims x op.block
  Blocks.demandMultiple h op.block
  Blocks.demandMultiple w op.block
  let area ← Blocks.area op.block
  let b := SymDim.ofSize op.block
  let h ← h.floorDiv b
  let w ← w.floorDiv b
  return [.ofShape x.dtype (.ranked [n, c * area, h, w])]

/-- The position of the output that a position of the input is written to. -/
def target (op : SpaceToDepth) (channels : Nat) (index : Index) : Outcome ε Index := do
  let (n, c, h, w) ← Blocks.coordinates index
  .demand (op.block ≠ 0)
  let b := op.block
  let k ← ChannelOrder.depthColumnRow.channel c (h % b) (w % b) b channels
  return [n, k, h / b, w / b]

def fill (op : SpaceToDepth) (x out : Tensor α) : Outcome ε (Tensor α) := do
  let channels ← x.size 1
  let positions ← Index.checkedAll x.shape
  let entries ← (positions.zip x.data).mapM fun (index, a) => do
    return (← op.target channels index, a)
  return out.write entries

def prepare (op : SpaceToDepth) (inputs : ValueInputs) (outputs : List Value) :
    Outcome OpError Kernel := do
  let x ← inputs.demand 0
  let out ← Kernel.single outputs
  return Kernel.sameType x out fun x out => op.fill x out

end SpaceToDepth

end TensorGraph
