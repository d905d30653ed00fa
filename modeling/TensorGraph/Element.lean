import TensorGraph.Binary32.Decimal
import TensorGraph.Word

/-!
The two kinds of elements that arrays hold at run time, and what kernels ask of them. Sums and
products of integers fault on overflow; those of numbers round and never fault.
-/

namespace TensorGraph

/-- Single precision numbers, or 64-bit integers, which also serve as truth values. -/
inductive DataType where
  | float
  | int
  deriving DecidableEq, Repr

namespace DataType

def bytes : DataType → Nat
  | float => 4
  | int => 8

def name : DataType → String
  | float => "f32"
  | int => "i64"

end DataType

/-- Types of elements that arrays hold at run time. -/
class Element (α : Type) where
  dtype : DataType
  zero : α
  one : α
  add : {ε : Type} → α → α → Outcome ε α
  mul : {ε : Type} → α → α → Outcome ε α
  /-- The order of elements, in which a NaN is below nothing and above nothing. -/
  less : α → α → Bool
  /-- Equality as elements, where zeros are equal and a NaN differs from itself. -/
  same : α → α → Bool
  /-- The text in messages about differing elements. -/
  debug : α → String

instance : Element Float32 where
  dtype := .float
  zero := 0
  one := 1
  add a b := .ok (a + b)
  mul a b := .ok (a * b)
  less a b := a < b
  same a b := a == b
  debug := Binary32.debug

instance : Element Int64 where
  dtype := .int
  zero := 0
  one := 1
  add a b := checkInt (a.toInt + b.toInt)
  mul a b := checkInt (a.toInt * b.toInt)
  less a b := a < b
  same a b := a == b
  debug := toString

end TensorGraph
