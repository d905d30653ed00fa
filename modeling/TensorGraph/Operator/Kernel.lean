import TensorGraph.Operator.Inputs

/-!
What runs an operator: a kernel takes zeroed outputs of the inferred types and gives the filled
ones, or none if it does not cover the types of its inputs.
-/

namespace TensorGraph

abbrev Filled := Outcome OpError (Option (List Value))

abbrev Kernel := Unit → Filled

namespace Kernel

variable {α : Type} [Value.Stored α]

def typed (α : Type) [Value.Stored α] (v : Value) : Outcome OpError (Tensor α) :=
  .orRefuse .unsupportedType (Value.Stored.unwrap? v)

def typed? (α : Type) [Value.Stored α] (v : Option Value) : Outcome OpError (Option (Tensor α)) :=
  match v with
  | none => .ok none
  | some v => return some (← typed α v)

def element? (α : Type) [Value.Stored α] (v : Option Value) : Outcome OpError (Option α) :=
  match v with
  | none => .ok none
  | some v => do
    let t ← typed α v
    return some (← .orRefuse (.value .singleElement) t.item?)

def filled (t : Tensor α) : Filled := .ok (some [Value.Stored.wrap t])

def single : List Value → Outcome OpError Value
  | [out] => .ok out
  | _ => .error (.value .singleOutput)

/-- Runs `f` on an input and an output of the same element type; others are not covered. -/
def sameType (x out : Value)
    (f : {α : Type} → [Value.Stored α] → Tensor α → Tensor α → Outcome OpError (Tensor α)) :
    Kernel := fun _ =>
  match x, out with
  | .float x, .float out => do filled (← f x out)
  | .int x, .int out => do filled (← f x out)
  | _, _ => .ok none

/-- Runs `f` on numbers; integers are not covered. -/
def floatOnly (x out : Value)
    (f : Tensor Float32 → Tensor Float32 → Outcome OpError (Tensor Float32)) : Kernel := fun _ =>
  match x, out with
  | .float x, .float out => do filled (← f x out)
  | _, _ => .ok none

/-- Runs `f` if the output is of integers; others are not covered. -/
def intOutput (out : Value) (f : Tensor Int64 → Outcome OpError (Tensor Int64)) : Kernel := fun _ =>
  match out with
  | .int out => do filled (← f out)
  | .float _ => .ok none

/-- Runs `f` for the element type of the output. -/
def anyOutput (out : Value)
    (f : {α : Type} → [Value.Stored α] → Tensor α → Outcome OpError (Tensor α)) : Kernel := fun _ =>
  match out with
  | .float out => do filled (← f out)
  | .int out => do filled (← f out)

def copy (x out : Value) : Kernel :=
  sameType x out fun x out => do
    .refuseIf (x.count ≠ out.count) (.shape .lengthsDiffer)
    return out.overwrite x.data

end Kernel

end TensorGraph
