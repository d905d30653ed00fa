import TensorGraph.Element
import TensorGraph.Tensor
import TensorGraph.Text

/-!
Agreement of tensors within tolerances: the shapes are equal, and so is each pair of elements up to
an absolute difference and one relative to the second element.
-/

namespace TensorGraph

/-- Elements that can be compared within tolerances. -/
class Near (α : Type) extends Element α where
  absoluteTolerance : α
  relativeTolerance : α
  near : {ε : Type} → α → α → α → α → Outcome ε Bool

/-- NaNs agree with each other, and infinities with themselves. -/
def nearFloat (atol rtol x y : Float32) : Bool :=
  if x.isNaN || y.isNaN then x.isNaN && y.isNaN
  else if x.isInf || y.isInf then x == y
  else (x - y).abs ≤ atol + rtol * y.abs

def nearInt {ε : Type} (atol rtol x y : Int64) : Outcome ε Bool := do
  let difference ← checkInt (x.toInt - y.toInt)
  let distance ← absInt difference
  let scale ← absInt y
  let relative ← checkInt (rtol.toInt * scale.toInt)
  let bound ← checkInt (atol.toInt + relative.toInt)
  return decide (distance ≤ bound)

instance : Near Float32 where
  absoluteTolerance := 1e-6
  relativeTolerance := 1e-5
  near atol rtol x y := .ok (nearFloat atol rtol x y)

instance : Near Int64 where
  absoluteTolerance := 0
  relativeTolerance := 0
  near := nearInt

inductive Disagreement (α : Type) where
  | shapes (x y : Shape)
  | values (count : Nat) (differing : List (Index × α × α))
  deriving DecidableEq, Repr

namespace Disagreement

def listed : Nat := 16

def message {α : Type} [Element α] : Disagreement α → String
  | shapes x y =>
    "Tensors have different shapes. " ++ Text.sizes x ++ " vs. " ++ Text.sizes y
  | values count differing =>
    let items := (differing.take listed).map fun (index, x, y) =>
      "(" ++ ", ".intercalate [Text.sizes index, Element.debug x, Element.debug y] ++ ")"
    "Tensor values differ at " ++ toString differing.length ++ " of " ++ toString count ++
      " indexes: " ++ Text.bracketed items ++ (if differing.length > listed then "..." else "")

end Disagreement

namespace Tensor

variable {α ε : Type} [Near α]

def agreeWithin (x y : Tensor α) (atol rtol : α) : Outcome (Disagreement α) Unit := do
  .refuseIf (x.shape ≠ y.shape) (.shapes x.shape y.shape)
  let positions ← Index.checkedAll x.shape
  let differing ← (positions.zip (x.data.zip y.data)).filterM fun (_, a, b) => do
    return !(← Near.near atol rtol a b)
  .refuseIf (!differing.isEmpty) (.values x.count differing)

def agree (x y : Tensor α) : Outcome (Disagreement α) Unit :=
  x.agreeWithin y Near.absoluteTolerance Near.relativeTolerance

end Tensor

end TensorGraph
