import TensorGraph.Symbolic.Tensor

/-!
Tensors of either element type, as operators take and give them. A value can be read as a tensor of
a wanted type, and described to inference in three degrees of detail.
-/

namespace TensorGraph

inductive Value where
  | float (t : Tensor Float32)
  | int (t : Tensor Int64)
  deriving DecidableEq, Repr

inductive CastError where
  | rank (actual expected : Nat)
  | type (actual expected : DataType)
  deriving DecidableEq, Repr

def CastError.message : CastError → String
  | rank actual expected => s!"expected tensor with {expected} dims but has {actual} dims"
  | type actual expected =>
    "expected tensor with type " ++ expected.name ++ " but has type " ++ actual.name

structure ValueType where
  dtype : DataType
  shape : Shape
  deriving DecidableEq, Repr

/-- A text such as `f32 [1, 16]`. -/
def ValueType.text (t : ValueType) : String := t.dtype.name ++ " " ++ Text.sizes t.shape

inductive Scalar where
  | int (n : Int64)
  | float (x : Float32)
  deriving DecidableEq, Repr

namespace Scalar

def dtype : Scalar → DataType
  | int _ => .int
  | float _ => .float

def toElement : Scalar → SymElement
  | int n => .int n
  | float x => .ofFloat x

end Scalar

namespace Value

variable {ε : Type}

class Stored (α : Type) extends SymElement.Known α where
  wrap : Tensor α → Value
  unwrap? : Value → Option (Tensor α)

instance : Stored Float32 where
  wrap := .float
  unwrap?
    | .float t => some t
    | .int _ => none

instance : Stored Int64 where
  wrap := .int
  unwrap?
    | .int t => some t
    | .float _ => none

def dtype : Value → DataType
  | float _ => .float
  | int _ => .int

def shape : Value → Shape
  | float t => t.shape
  | int t => t.shape

def rank (v : Value) : Nat := v.shape.length

def count : Value → Nat
  | float t => t.count
  | int t => t.count

def isEmpty (v : Value) : Bool := v.count = 0

def bytes (v : Value) : Nat := v.count * v.dtype.bytes

def type (v : Value) : ValueType := ⟨v.dtype, v.shape⟩

/-- A value of zeros, for which there has to be room. -/
def zeros (t : ValueType) : Outcome ε Value :=
  match t.dtype with
  | .float => return float (← Tensor.full t.dtype.bytes t.shape 0)
  | .int => return int (← Tensor.full t.dtype.bytes t.shape 0)

def cast (α : Type) [Stored α] (v : Value) : Outcome CastError (Tensor α) :=
  .orRefuse (.type v.dtype (Element.dtype α)) (Stored.unwrap? v)

def toInts (v : Value) : Outcome CastError (List Int64) := do
  let t ← v.cast Int64
  .refuseIf (t.rank > 1) (.rank t.rank 1)
  return t.data

def toFloat? : Value → Option Float32
  | float t => t.item?
  | int t => t.item?.map fun n => Binary32.ofInt n.toInt

def toShapeOnly (v : Value) : SymTensor := .ofShape v.dtype (.ofShape v.shape)

def toSymbolic : Value → SymTensor
  | float t => .ofTensor t
  | int t => .ofTensor t

/-- What inference tracks of the value, with the elements of every scalar and vector. -/
def toWhole : Value → SymTensor
  | float t => .ofWholeTensor t
  | int t => .ofWholeTensor t

def ofSymbolic? (t : SymTensor) : Option Value := do
  guard t.isFullyKnown
  let shape ← t.shape.toShape?
  match t.dtype with
  | .float =>
    match Tensor.ofData? shape (← t.floats?) with
    | .ok t => some (float t)
    | _ => none
  | .int =>
    match Tensor.ofData? shape (← t.ints?) with
    | .ok t => some (int t)
    | _ => none

end Value

end TensorGraph
