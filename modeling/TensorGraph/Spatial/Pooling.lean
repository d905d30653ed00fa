import TensorGraph.Spatial.Window

/-!
Pooling: the greatest number or the average of each window over the spatial dimensions.
-/

namespace TensorGraph

inductive Pooling where
  | max
  | average
  deriving DecidableEq, Repr

structure Pool where
  pooling : Pooling
  kernel : List Nat
  strides : List Nat
  padding : Padding
  /-- Whether a window may reach over the end of the padded input. -/
  ceilMode : Bool
  /-- Whether the padding counts for averages. -/
  countPads : Bool
  deriving DecidableEq, Repr

namespace Pool

variable {ε : Type}

def name (op : Pool) : String :=
  match op.pooling with
  | .max => "MaxPool"
  | .average => "AveragePool"

def dims? (x : SymTensor) : Outcome RuleError (Option (List SymDim)) := do
  .refuseIf (x.dtype ≠ .float) (.type .pooling)
  x.shape.demandRank 3
  return x.shape.dims?

def spatialSizes (op : Pool) (ds : List SymDim) (strides : List Nat) :
    Outcome RuleError (List SymDim) :=
  let rank := ds.length - 2
  (List.range rank).mapM fun k => do
    Window.outputSize (ds.getD (2 + k) .unknown) (.ofSize (op.kernel.getD k 1))
      (strides.getD k 1) 1 (← op.padding.dim k rank) op.ceilMode

def infer (op : Pool) (inputs : SymInputs) : Outcome RuleError (List SymTensor) := do
  let x ← inputs.demand 0
  match ← dims? x with
  | none => return [.unranked .float]
  | some ds =>
    let rank := ds.length - 2
    .refuseIf (op.kernel.length ≠ rank ∨ op.kernel.contains 0) (.value .kernelShape)
    let strides ← Window.perDimension op.strides rank .strides
    return [.ofShape .float (.ranked (ds.take 2 ++ (← op.spatialSizes ds strides)))]

structure Geometry where
  kernel : List Nat
  motions : List Window.Motion
  countPads : Bool
  deriving DecidableEq, Repr

/-- Where an element of a window stands: past the padded input, in the padding, or inside. -/
inductive Place where
  | outside
  | padding
  | inside (index : Index)
  deriving DecidableEq, Repr

/-- Where an element stands along one dimension at position `p`. -/
def placeAlong (m : Window.Motion) (size : Nat) (p : Int64) : Outcome ε Place := do
  let first ← checkInt (-(intOfSize m.padStart).toInt)
  if p < first then return .outside
  else
    let size := intOfSize size
    let past ← checkInt (size.toInt + (intOfSize m.padStop).toInt)
    return if p ≥ past then .outside
      else if p < 0 ∨ p ≥ size then .padding
      else .inside [sizeOfInt p]

/-- Joins where an element stands along one dimension with where it stands along the others. -/
def Place.join : Place → Place → Place
  | outside, _ | _, outside => outside
  | inside i, inside j => inside (i ++ j)
  | _, _ => padding

/-- Where element `k` of the window at place `i` stands in an array of the given sizes, dimension by
dimension, up to the first one in which it is outside. -/
def place : List Window.Motion → List Nat → Index → Index → Outcome ε Place
  | [], _, _, _ => .ok (.inside [])
  | m :: ms, size :: sizes, i :: is, k :: ks => do
    match ← placeAlong m size (← m.position i k) with
    | .outside => return .outside
    | p => return p.join (← place ms sizes is ks)
  | _, _, _, _ => .fault

/-- The number for a window, from the numbers inside and the count of elements that are not
outside. -/
def combine (pooling : Pooling) (countPads : Bool) (xs : List Float32) (placed : Nat) : Float32 :=
  match pooling with
  | .max => xs.foldl Binary32.max Binary32.negInfinity
  | .average =>
    let divisor := if countPads then placed else xs.length
    if divisor > 0 then xs.foldl (· + ·) 0 / Binary32.ofNat divisor else 0

def element (pooling : Pooling) (g : Geometry) (x : Tensor Float32) (index : Index) :
    Outcome ε Float32 := do
  .demand (2 ≤ index.length)
  let window ← Index.checkedAll g.kernel
  let places ← window.mapM fun k => place g.motions (x.shape.drop 2) (index.drop 2) k
  let xs := places.filterMap fun
    | .inside p => x.get? (index.take 2 ++ p)
    | _ => none
  let placed := places.countP (· ≠ .outside)
  .demand (placed < counterLimit)
  return combine pooling g.countPads xs placed

def fill (pooling : Pooling) (g : Geometry) (x out : Tensor Float32) :
    Outcome ε (Tensor Float32) :=
  out.mapIndexedM fun index _ => element pooling g x index

def geometry (op : Pool) (x out : Shape) : Outcome OpError Geometry := do
  let rank ← Window.spatialRank x
  let strides ← (Window.perDimension op.strides rank .strides).mapError OpError.ofRule
  .demand (2 ≤ out.length)
  let dilations := List.replicate rank 1
  let pads ← Window.resolvePads op.padding (x.drop 2) (out.drop 2) op.kernel strides dilations
  return ⟨op.kernel, Window.motions strides dilations pads, op.countPads⟩

def resolve (op : Pool) (inputs : ValueInputs) (outputs : List Value) : Outcome OpError Pool := do
  let x ← inputs.demand 0
  let out ← Kernel.single outputs
  let g ← op.geometry x.shape out.shape
  return { op with
    padding := Window.paddingOf g.motions
    strides := g.motions.map (·.stride) }

def prepare (op : Pool) (inputs : ValueInputs) (outputs : List Value) : Outcome OpError Kernel := do
  let x ← inputs.demand 0
  let out ← Kernel.single outputs
  let g ← op.geometry x.shape out.shape
  return Kernel.floatOnly x out (fill op.pooling g)

end Pool

structure GlobalPool where
  pooling : Pooling
  deriving DecidableEq, Repr

namespace GlobalPool

def name (op : GlobalPool) : String :=
  match op.pooling with
  | .max => "GlobalMaxPool"
  | .average => "GlobalAveragePool"

def infer (inputs : SymInputs) : Outcome RuleError (List SymTensor) := do
  let x ← inputs.demand 0
  match ← Pool.dims? x with
  | none => return [.unranked .float]
  | some ds =>
    return [.ofShape .float (.ranked (ds.take 2 ++ List.replicate (ds.length - 2) (.size 1)))]

def geometry (x : Shape) : Outcome OpError Pool.Geometry := do
  let rank ← Window.spatialRank x
  let motions := Window.motions (List.replicate rank 1) (List.replicate rank 1)
    (List.replicate rank (0, 0))
  return ⟨x.drop 2, motions, false⟩

def prepare (op : GlobalPool) (inputs : ValueInputs) (outputs : List Value) :
    Outcome OpError Kernel := do
  let x ← inputs.demand 0
  let g ← geometry x.shape
  let out ← Kernel.single outputs
  return Kernel.floatOnly x out (Pool.fill op.pooling g)

end GlobalPool

end TensorGraph
