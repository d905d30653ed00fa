import TensorGraph.Binary32.Functions
import TensorGraph.Operator.Kernel

/-!
Tensors made from a description: one value everywhere, ones on a diagonal, the numbers from a
start up to a limit that lie apart by a step, and the elements of a tensor in another type, where
numbers are cut off toward zero.
-/

namespace TensorGraph

structure ConstantOfShape where
  value : Scalar
  deriving DecidableEq, Repr

namespace ConstantOfShape

def infer (op : ConstantOfShape) (inputs : SymInputs) : Outcome RuleError (List SymTensor) := do
  let sizes ← inputs.demand 0
  .refuseIf (sizes.dtype ≠ .int) (.type .shape)
  let shape ← sizes.toSizes
  .refuseIf (shape.dims.any fun d => d.value?.any (· < 0)) (.value .negativeShape)
  let output := SymTensor.ofShape op.value.dtype shape
  return [output.mapElements output.dtype fun _ => op.value.toElement]

def prepare (op : ConstantOfShape) (outputs : List Value) : Outcome OpError Kernel := do
  let out ← Kernel.single outputs
  return fun _ =>
    match op.value, out with
    | .float x, .float out => Kernel.filled (out.map fun _ => x)
    | .int n, .int out => Kernel.filled (out.map fun _ => n)
    | _, _ => .ok none

end ConstantOfShape

/-- Ones on the `k`th diagonal of a matrix with the shape of the input, and zeros elsewhere. -/
structure EyeLike where
  k : Int64
  dtype : Option DataType
  deriving DecidableEq, Repr

namespace EyeLike

variable {ε α : Type}

def infer (op : EyeLike) (inputs : SymInputs) : Outcome RuleError (List SymTensor) := do
  let x ← inputs.demand 0
  return [.ofShape (op.dtype.getD x.dtype) (← x.shape.declareRank 2)]

def fill [Element α] (op : EyeLike) (out : Tensor α) : Outcome ε (Tensor α) := do
  let columns ← out.size 1
  return out.overwrite ((List.range out.count).map fun i =>
    if ((i % columns : Nat) : Int) - (i / columns : Nat) = op.k.toInt then Element.one
    else Element.zero)

def prepare (op : EyeLike) (outputs : List Value) : Outcome OpError Kernel := do
  return Kernel.anyOutput (← Kernel.single outputs) op.fill

end EyeLike

namespace Range

variable {ε α : Type}

def intLength (start limit delta : Int64) : Outcome RuleError Nat := do
  .refuseIf (delta = 0) (.value .zeroDelta)
  let span := addClamped (subClamped limit start) (← checkInt (delta.toInt - (signInt delta).toInt))
  let n ← divInt span delta
  return n.toInt.toNat

def floatLength (start limit delta : Float32) : Outcome RuleError Nat := do
  .refuseIf (delta == 0) (.value .zeroDelta)
  let n := Binary32.ceil ((limit - start) / delta)
  return if n > 0 then Binary32.toSize n else 0

/-- The first `count` integers of a sequence; after one that overflows nothing is known. -/
def intElements (delta : Int64) : Nat → Option Int64 → List SymElement
  | 0, _ => []
  | count + 1, some n => .int n :: intElements delta count (addInt? n delta)
  | count + 1, none => .unknown :: intElements delta count none

/-- The first `count` numbers of a sequence, each from the one before. -/
def floatElements (delta : Float32) : Nat → Float32 → List SymElement
  | 0, _ => []
  | count + 1, x => .ofFloat x :: floatElements delta count (x + delta)

/-- A vector of a given length whose tracked elements are given by their count. -/
def sequence (dtype : DataType) (length : Nat) (elements : Nat → List SymElement) : SymTensor :=
  let output := SymTensor.ofShape dtype (.ranked [.ofSize length])
  { output with elements := output.elements.map fun es => elements es.length }

def demandSingle (t : SymTensor) : Outcome RuleError Unit :=
  .refuseIf (t.shape.count.value?.any (· ≠ 1)) (.value .rangeInputs)

def infer (inputs : SymInputs) : Outcome RuleError (List SymTensor) := do
  let start ← inputs.demand 0
  let limit ← inputs.demand 1
  let delta ← inputs.demand 2
  let dtype := start.dtype
  .refuseIf (limit.dtype ≠ dtype ∨ delta.dtype ≠ dtype) (.type .rangeTypes)
  demandSingle start
  demandSingle limit
  demandSingle delta
  match start.single?, limit.single?, delta.single? with
  | some (.int start), some (.int limit), some (.int delta) =>
    let length ← intLength start limit delta
    return [sequence dtype length fun count => intElements delta count (some start)]
  | some (.float start), some (.float limit), some (.float delta) =>
    let length ← floatLength (.ofBits start) (.ofBits limit) (.ofBits delta)
    return [sequence dtype length fun count => floatElements (.ofBits delta) count (.ofBits start)]
  | _, _, delta =>
    .refuseIf (delta = some (.int 0)) (.value .zeroDelta)
    return [.ofShape dtype (.ranked [.unknown])]

/-- The `count` elements after `a`, each from the one before. A step that overflows faults. -/
def stepsFrom [Element α] (delta : α) : Nat → α → Outcome ε (List α)
  | 0, _ => .ok []
  | count + 1, a => do
    let next ← Element.add a delta
    return next :: (← stepsFrom delta count next)

def fill [Element α] (start delta : α) (out : Tensor α) : Outcome ε (Tensor α) := do
  return out.overwrite (start :: (← stepsFrom delta (out.count - 1) start))

def prepare (inputs : ValueInputs) (outputs : List Value) : Outcome OpError Kernel := do
  let start ← inputs.demand 0
  let delta ← inputs.demand 2
  let out ← Kernel.single outputs
  return Kernel.anyOutput out fun {α} _ out => do
    let start ← .orRefuse (.value .rangeInputs) (← Kernel.element? α (some start))
    let delta ← .orRefuse (.value .rangeInputs) (← Kernel.element? α (some delta))
    fill start delta out

end Range

namespace Cast

def onElement (wanted : DataType) : SymElement → SymElement
  | .int n => match wanted with
    | .float => .ofFloat (Binary32.ofInt n.toInt)
    | .int => .int n
  | .float bits => match wanted with
    | .int => .int (Binary32.toInt (.ofBits bits))
    | .float => .float bits
  | .param name => match wanted with
    | .float => .unknown
    | .int => .param name
  | .unknown => .unknown

def inferTo (x : SymTensor) (wanted : DataType) : SymTensor :=
  x.mapElements wanted (onElement wanted)

def infer (wanted : DataType) (inputs : SymInputs) : Outcome RuleError (List SymTensor) := do
  return [inferTo (← inputs.demand 0) wanted]

def inferLike (inputs : SymInputs) : Outcome RuleError (List SymTensor) := do
  let x ← inputs.demand 0
  return [inferTo x (← inputs.demand 1).dtype]

def kernel (x out : Value) : Kernel := fun _ =>
  match x, out with
  | .float x, .float out => Kernel.filled (out.overwrite x.data)
  | .float x, .int out => Kernel.filled (out.overwrite (x.data.map Binary32.toInt))
  | .int x, .float out =>
    Kernel.filled (out.overwrite (x.data.map fun n => Binary32.ofInt n.toInt))
  | .int x, .int out => Kernel.filled (out.overwrite x.data)

def prepare (inputs : ValueInputs) (outputs : List Value) : Outcome OpError Kernel := do
  let x ← inputs.demand 0
  return kernel x (← Kernel.single outputs)

end Cast

end TensorGraph
