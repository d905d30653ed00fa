import TensorGraph.Binary32.Functions
import TensorGraph.Operator.Kernel
import TensorGraph.Tensor

/-!
Reductions of tensors over axes, which join the elements of each lane into one. Integers wrap
around; an empty lane gives the identity of the reduction.
-/

namespace TensorGraph

inductive Reduction where
  | l1
  | l2
  | logSum
  | logSumExp
  | max
  | mean
  | min
  | product
  | sum
  | sumSquare
  deriving DecidableEq, Repr

namespace Reduction

def supports : Reduction → DataType → Bool
  | l2, t | logSum, t | logSumExp, t | mean, t => t == .float
  | _, _ => true

/-- Whether inference computes results from known integers. -/
def folds : Reduction → Bool
  | sum | product | max | min => true
  | _ => false

/-- The logarithm of a sum of exponentials, relative to the greatest exponent. -/
def logSumExpOf (xs : List Float32) : Float32 :=
  let top := xs.foldl Binary32.max Binary32.negInfinity
  if top == Binary32.negInfinity then top
  else top + (Binary32.sum (xs.map fun x => (x - top).exp)).log

/-- Whether the numbers of a lane can be joined: a mean counts them with 32 bits. -/
def Countable (r : Reduction) (xs : List Float32) : Prop := r = mean → xs.length < counterLimit

instance (r : Reduction) (xs : List Float32) : Decidable (r.Countable xs) :=
  inferInstanceAs (Decidable (_ → _))

/-- The numbers of a lane joined from the left; the mean of none is NaN. -/
def onFloats (r : Reduction) (xs : List Float32) : Float32 :=
  match r with
  | l1 => Binary32.sum (xs.map (·.abs))
  | l2 => (Binary32.sum (xs.map fun x => x * x)).sqrt
  | logSum => (Binary32.sum xs).log
  | logSumExp => logSumExpOf xs
  | max => xs.foldl Binary32.max Binary32.negInfinity
  | mean => xs.foldl (· + ·) 0 / Binary32.ofNat xs.length
  | min => xs.foldl Binary32.min Binary32.infinity
  | product => Binary32.product xs
  | sum => Binary32.sum xs
  | sumSquare => Binary32.sum (xs.map fun x => x * x)

/-- The integers of a lane joined from the left; what is not defined for integers gives zero. -/
def onInts (r : Reduction) (ns : List Int64) : Int64 :=
  match r with
  | l1 => ns.foldl (fun acc n => acc + if n < 0 then -n else n) 0
  | max => ns.foldl (fun acc n => if acc ≤ n then n else acc) Int64.minValue
  | min => ns.foldl (fun acc n => if acc ≤ n then acc else n) Int64.maxValue
  | product => ns.foldl (· * ·) 1
  | sum => ns.foldl (· + ·) 0
  | sumSquare => ns.foldl (fun acc n => acc + n * n) 0
  | l2 | logSum | logSumExp | mean => 0

end Reduction

/-- A reduction over axes, which are given as an attribute or by the second input. -/
structure Reduce where
  reduction : Reduction
  axes : Option (List Int64)
  keepDims : Bool
  /-- Whether a reduction over no axes keeps its input, rather than join all elements. -/
  emptyKeeps : Bool
  deriving DecidableEq, Repr

namespace Reduce

def name (op : Reduce) : String :=
  match op.reduction with
  | .l1 => "ReduceL1"
  | .l2 => "ReduceL2"
  | .logSum => "ReduceLogSum"
  | .logSumExp => "ReduceLogSumExp"
  | .max => "ReduceMax"
  | .mean => "ReduceMean"
  | .min => "ReduceMin"
  | .product => "ReduceProd"
  | .sum => "ReduceSum"
  | .sumSquare => "ReduceSumSquare"

inductive Axes where
  | unknown
  | keep
  | all
  | some (axes : List Int64)
  deriving DecidableEq, Repr

/-- The axes of the attribute, else those of the second input: `input` tells whether it is given,
and its elements if they are known. -/
def selectAxes (op : Reduce) (input : Option (Option (List Int64))) : Axes :=
  let default : Axes := if op.emptyKeeps then .keep else .all
  match op.axes, input with
  | .some axes, _ => if axes.isEmpty then default else .some axes
  | none, .some (.some axes) => if axes.isEmpty then default else .some axes
  | none, .some none => .unknown
  | none, none => default

/-- Whether the elements of a whole vector or scalar are joined. -/
def joinsAll (x : SymTensor) : Axes → Bool
  | .all => true
  | .some axes => x.rank? = Option.some 1 && axes.length = 1
  | .keep | .unknown => false

def outputShape (op : Reduce) (x : SymTensor) : Axes → Outcome RuleError SymShape
  | .unknown =>
    match x.rank? with
    | .some rank => .ok (if op.keepDims then .ofRank rank else .unknown)
    | none => .ok .unknown
  | .keep => .ok x.shape
  | .all => x.shape.reduce none op.keepDims
  | .some axes => x.shape.reduce (Option.some axes) op.keepDims

/-- Known integers of a whole vector or scalar are joined. -/
def infer (op : Reduce) (inputs : SymInputs) : Outcome RuleError (List SymTensor) := do
  let x ← inputs.demand 0
  let axes := op.selectAxes ((inputs.find? 1).map (·.ints?))
  if axes = .keep then return [x]
  let output := SymTensor.ofShape x.dtype (← op.outputShape x axes)
  if op.reduction.folds && x.dtype = .int && joinsAll x axes then
    match x.ints? with
    | .some ns => return [output.set 0 (.int (op.reduction.onInts ns))]
    | none => return [output]
  else return [output]

/-- Fills an output with the joined lanes of `x`, which have to be such as can be joined. -/
def fill {ε α : Type} (joinable : List α → Prop) [DecidablePred joinable] (join : List α → α)
    (x : Tensor α) (dims : List Nat) (out : Tensor α) : Outcome ε (Tensor α) := do
  let lanes ← x.lanes dims
  .demand (∀ lane ∈ lanes, joinable lane)
  return out.overwrite (lanes.map join)

def kernel (op : Reduction) (x : Value) (dims : List Nat) (out : Value) : Kernel := fun _ =>
  if !op.supports x.dtype then .ok none
  else
    match x, out with
    | .float x, .float out => do
      Kernel.filled (← fill op.Countable op.onFloats x dims out)
    | .int x, .int out => do Kernel.filled (← fill (fun _ => True) op.onInts x dims out)
    | _, _ => .ok none

def prepare (op : Reduce) (inputs : ValueInputs) (outputs : List Value) :
    Outcome OpError Kernel := do
  let x ← inputs.demand 0
  let out ← Kernel.single outputs
  match op.selectAxes ((← inputs.findInts? 1).map Option.some) with
  | .keep => return Kernel.copy x out
  | .all | .unknown => return kernel op.reduction x (List.range x.rank) out
  | .some axes =>
    let dims ← (Axis.resolveAll x.rank axes).mapError OpError.ofRule
    return kernel op.reduction x dims out

end Reduce

end TensorGraph
