import TensorGraph.Element
import TensorGraph.Symbolic.Element
import TensorGraph.Symbolic.Shape
import TensorGraph.Tensor

/-!
What inference knows of a tensor: the type of its elements, its shape as far as it is known, and
the elements of small vectors and scalars, such as shapes, axes and constants.
-/

namespace TensorGraph

/-- What is known of a tensor. Elements are listed in row-major order if they are tracked. -/
structure SymTensor where
  dtype : DataType
  shape : SymShape
  elements : Option (List SymElement)
  deriving DecidableEq, Repr

class SymElement.Known (α : Type) extends Element α where
  known : α → SymElement

instance : SymElement.Known Float32 := ⟨.ofFloat⟩

instance : SymElement.Known Int64 := ⟨.int⟩

namespace SymTensor

variable {ε : Type}

/-- The largest element count and rank of tensors whose elements are tracked. -/
def maxElements : Nat := 16

def maxRank : Nat := 1

/-- The count of elements that are tracked for a shape, if they are. -/
def trackedCount (shape : SymShape) : Option Nat :=
  if shape.rank?.any (· ≤ maxRank) then
    shape.toShape?.bind fun sizes => if sizes.volume ≤ maxElements then some sizes.volume else none
  else none

def ofShape (dtype : DataType) (shape : SymShape) : SymTensor :=
  ⟨dtype, shape, (trackedCount shape).map (List.replicate · .unknown)⟩

def unranked (dtype : DataType) : SymTensor := ⟨dtype, .unknown, none⟩

/-- A tensor of known elements, which are dropped if there are too many to track. They have to fill
the shape. -/
def ofElements (dtype : DataType) (shape : SymShape) (elements : List SymElement) :
    Outcome ε SymTensor := do
  .demand (shape.count = .ofSize elements.length)
  return ⟨dtype, shape, if (trackedCount shape).isSome then some elements else none⟩

def vector (dtype : DataType) (elements : List SymElement) : SymTensor :=
  let shape := SymShape.ofShape [elements.length]
  ⟨dtype, shape, if (trackedCount shape).isSome then some elements else none⟩

def scalar (dtype : DataType) (element : SymElement) : SymTensor := ⟨dtype, .scalar, some [element]⟩

def ofInts (ns : List Int64) : SymTensor := vector .int (ns.map .int)

def ofInt (n : Int64) : SymTensor := scalar .int (.int n)

def ofFloat (x : Float32) : SymTensor := scalar .float (.ofFloat x)

def ofSizes : SymShape → SymTensor
  | .ranked ds => vector .int (ds.map .ofDim)
  | .unknown => ofShape .int (.ranked [.unknown])

/-- What is known of a given tensor. Elements are kept if there are few enough to track. -/
def ofTensor {α : Type} [SymElement.Known α] (t : Tensor α) : SymTensor :=
  let shape := SymShape.ofShape t.shape
  let elements := (trackedCount shape).map fun _ => t.data.map SymElement.Known.known
  ⟨Element.dtype α, shape, elements⟩

/-- What is known of a given tensor, with the elements of every scalar and vector. -/
def ofWholeTensor {α : Type} [SymElement.Known α] (t : Tensor α) : SymTensor :=
  let elements :=
    if t.rank ≤ maxRank then some (t.data.map SymElement.Known.known) else none
  ⟨Element.dtype α, .ofShape t.shape, elements⟩

def rank? (t : SymTensor) : Option Nat := t.shape.rank?

/-- One element, which is unknown if it is not tracked. -/
def get (t : SymTensor) (i : Nat) : SymElement := (t.elements.getD []).getD i .unknown

def set (t : SymTensor) (i : Nat) (e : SymElement) : SymTensor :=
  { t with elements := t.elements.map (·.set i e) }

def setLeading (t : SymTensor) (es : List SymElement) : SymTensor :=
  { t with elements := t.elements.map fun old => es.take old.length ++ old.drop es.length }

def isFullyKnown (t : SymTensor) : Bool := t.elements.any (·.all (·.isKnown))

def hasKnownElements (t : SymTensor) : Bool := t.elements.any (·.any (·.isKnown))

def ints? (t : SymTensor) : Option (List Int64) := t.elements.bind (·.mapM (·.int?))

def floats? (t : SymTensor) : Option (List Float32) := t.elements.bind (·.mapM (·.float?))

def single? (t : SymTensor) : Option SymElement :=
  match t.elements with
  | some [e] => some e
  | _ => none

def singleInt? (t : SymTensor) : Option Int64 := t.single?.bind (·.int?)

def singleFloat? (t : SymTensor) : Option Float32 := t.single?.bind (·.float?)

/-- The shape of which the tensor lists the sizes, for which there has to be room. Of an untracked
vector only the rank of that shape can be known. -/
def toSizes (t : SymTensor) : Outcome ε SymShape :=
  match t.elements with
  | some es => do
    checkRoom es.length SymDim.bytes
    return .ranked (es.map (·.toDim))
  | none =>
    match t.shape with
    | .ranked [.size n] => if n ≥ 0 then SymShape.ofLargeRank (sizeOfInt n) else .ok .unknown
    | _ => .ok .unknown

/-- The same elements under another shape, as far as they are tracked for both. -/
def reshaped (t : SymTensor) (shape : SymShape) : SymTensor :=
  match t.elements with
  | some es =>
    if trackedCount shape = some es.length then ⟨t.dtype, shape, some es⟩ else ofShape t.dtype shape
  | none => ofShape t.dtype shape

/-- The tensor of another type with every tracked element replaced. -/
def mapElements (t : SymTensor) (dtype : DataType) (f : SymElement → SymElement) : SymTensor :=
  ⟨dtype, t.shape, t.elements.map (·.map f)⟩

def clearElements (t : SymTensor) : SymTensor :=
  { t with elements := t.elements.map (·.map fun _ => .unknown) }

def merge (t u : SymTensor) : SymTensor :=
  let merged := ofShape t.dtype (t.shape.merge u.shape)
  match t.elements, u.elements with
  | some a, some b =>
    if merged.elements.any (·.length = a.length) then
      merged.setLeading (List.zipWith SymElement.merge a b)
    else merged
  | _, _ => merged

def text (t : SymTensor) : String :=
  let elements := match t.elements with
    | some es =>
      if es.any (· ≠ .unknown) then " = " ++ Text.bracketed (es.map (·.text)) else ""
    | none => ""
  t.dtype.name ++ " " ++ t.shape.text ++ elements

/-- A tensor of another type with the shape of `t`. -/
def sameShape (t : SymTensor) (dtype : DataType) : SymTensor := ofShape dtype t.shape

def broadcast (ts : List SymTensor) (dtype : DataType) : Outcome RuleError SymTensor := do
  return ofShape dtype (← SymShape.broadcast (ts.map (·.shape)))

/-- The element that is read for position `i` of a broadcast result. -/
def readAt (t : SymTensor) (i : Nat) : SymElement :=
  t.get (if t.elements.any (·.length = 1) then 0 else i)

/-- A broadcast result whose elements are given by position, if all inputs have tracked elements. -/
def fillFrom (output : SymTensor) (inputs : List SymTensor) (f : Nat → SymElement) : SymTensor :=
  if inputs.all (·.elements.isSome) then
    { output with elements := output.elements.map fun es => (List.range es.length).map f }
  else output

end SymTensor

end TensorGraph
