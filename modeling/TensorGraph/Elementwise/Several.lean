import TensorGraph.Elementwise.Binary

/-!
Functions of any number of elements, the choice between two tensors by a condition, where zero
takes the second, and bounds that hold an element between them.
-/

namespace TensorGraph

inductive VariadicFn where
  | sum
  | mean
  | max
  | min
  deriving DecidableEq, Repr

namespace VariadicFn

def name : VariadicFn → String
  | sum => "Sum"
  | mean => "Mean"
  | max => "Max"
  | min => "Min"

def combine : VariadicFn → BinaryFn
  | sum | mean => .add
  | max => .max
  | min => .min

def supports : VariadicFn → DataType → Bool
  | mean, t => t == .float
  | _, _ => true

/-- Whether inference computes results from known elements. -/
def folds : VariadicFn → Bool
  | mean => false
  | _ => true

def onElements (f : VariadicFn) : List SymElement → SymElement
  | [] => .unknown
  | e :: es => es.foldl f.combine.onElements e

def infer (f : VariadicFn) (inputs : SymInputs) : Outcome RuleError (List SymTensor) := do
  let first ← inputs.demand 0
  let args := inputs.given
  .refuseIf (args.any (·.dtype ≠ first.dtype)) (.type .inputTypes)
  let output ← SymTensor.broadcast args first.dtype
  return [if f.folds then output.fillFrom args fun i => f.onElements (args.map (·.readAt i))
    else output]

/-- Combines broadcast inputs from the left; without inputs the output stays. -/
def fold {ε α : Type} (f : α → α → α) (inputs : List (Tensor α)) (out : Tensor α) :
    Outcome ε (Tensor α) :=
  match inputs with
  | [] => .ok out
  | first :: rest => do
    let start ← first.broadcastElements out.shape
    rest.foldlM
      (fun acc t => do
        return acc.overwrite (List.zipWith f acc.data (← t.broadcastElements acc.shape)))
      (out.overwrite start)

/-- Fills an output with the values on all inputs, read together by broadcasting. -/
def kernel (f : VariadicFn) (inputs : List Value) (out : Value) : Kernel := fun _ =>
  if !f.supports out.dtype then .ok none
  else
    match out with
    | .float out => do
      let xs ← inputs.mapM (Kernel.typed Float32)
      let total ← fold f.combine.onFloat xs out
      Kernel.filled (if f = mean then total.map (· / Binary32.ofNat xs.length) else total)
    | .int out => do
      let xs ← inputs.mapM (Kernel.typed Int64)
      Kernel.filled (← fold (fun a b => (f.combine.onInt? a b).getD 0) xs out)

def prepare (f : VariadicFn) (inputs : ValueInputs) (outputs : List Value) :
    Outcome OpError Kernel := do
  let xs ← inputs.mapM (Outcome.orRefuse .missingInputs)
  return f.kernel xs (← Kernel.single outputs)

end VariadicFn

namespace Where

/-- A known condition decides; otherwise only what both choices agree on is known. -/
def onElements : SymElement → SymElement → SymElement → SymElement
  | .int n, x, y => if n = 0 then y else x
  | _, x, y => x.merge y

/-- The result has the common shape of the condition and the choices. -/
def infer (inputs : SymInputs) : Outcome RuleError (List SymTensor) := do
  let condition ← inputs.demand 0
  let x ← inputs.demand 1
  let y ← inputs.demand 2
  .refuseIf (condition.dtype ≠ .int) (.type .condition)
  .refuseIf (x.dtype ≠ y.dtype) (.type .inputTypes)
  let output ← SymTensor.broadcast [condition, x, y] x.dtype
  return [output.fillFrom [condition, x, y] fun i =>
    onElements (condition.readAt i) (x.readAt i) (y.readAt i)]

/-- Fills an output with elements of `x` where the condition is not zero, and of `y` elsewhere. -/
def fill {ε α : Type} (condition : Tensor Int64) (x y out : Tensor α) : Outcome ε (Tensor α) := do
  let cs ← condition.broadcastElements out.shape
  let xs ← x.broadcastElements out.shape
  let ys ← y.broadcastElements out.shape
  return out.overwrite ((cs.zip (xs.zip ys)).map fun (c, x, y) => if c ≠ 0 then x else y)

def prepare (inputs : ValueInputs) (outputs : List Value) : Outcome OpError Kernel := do
  let condition ← inputs.demand 0
  let x ← inputs.demand 1
  let y ← inputs.demand 2
  let out ← Kernel.single outputs
  match condition with
  | .float _ => return fun _ => .ok none
  | .int c => return Kernel.sameType x out fun x out => do fill c x (← Kernel.typed _ y) out

end Where

namespace Clip

def infer (inputs : SymInputs) : Outcome RuleError (List SymTensor) := do
  let x ← inputs.demand 0
  let bounds := [inputs.find? 1, inputs.find? 2].filterMap id
  .refuseIf (bounds.any (·.dtype ≠ x.dtype)) (.type .clipBounds)
  return [x.sameShape x.dtype]

/-- An element held between bounds; one that is above or below nothing stays. -/
def hold {α : Type} [Element α] (lo hi : Option α) (x : α) : α :=
  let x := match lo with
    | some lo => if Element.less x lo then lo else x
    | none => x
  match hi with
  | some hi => if Element.less hi x then hi else x
  | none => x

def prepare (inputs : ValueInputs) (outputs : List Value) : Outcome OpError Kernel := do
  let x ← inputs.demand 0
  let out ← Kernel.single outputs
  return Kernel.sameType x out fun x out => do
    let lo ← Kernel.element? _ (inputs.find? 1)
    let hi ← Kernel.element? _ (inputs.find? 2)
    return out.overwrite (x.data.map (hold lo hi))

end Clip

end TensorGraph
