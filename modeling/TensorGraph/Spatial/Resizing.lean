import TensorGraph.Binary32.Functions
import TensorGraph.Operator.Kernel

/-!
Images in the last two dimensions brought to another size. Each pixel of the result has a coordinate
in the image, and takes the nearest pixel there or weighs the four around it.
-/

namespace TensorGraph

/-- How pixels of the result come from pixels of the image. -/
inductive Interpolation where
  | nearest
  | linear
  deriving DecidableEq, Repr

inductive CoordinateMode where
  | halfPixel
  | asymmetric
  | alignCorners
  | halfPixelOrZero
  deriving DecidableEq, Repr

inductive NearestMode where
  | ceil
  | floor
  | preferCeil
  | preferFloor
  deriving DecidableEq, Repr

/-- Images brought to another size, which scales or sizes give. -/
structure Resize where
  interpolation : Interpolation
  coordinates : CoordinateMode
  nearest : NearestMode
  deriving DecidableEq, Repr

namespace Resize

/-- A parameter that is given and not known to be empty. -/
def nonEmpty (t : Option SymTensor) : Option SymTensor := t.filter (·.shape.count ≠ .size 0)

/-- A scaled dimension; a scale of one keeps it. -/
def scaledDim (d : SymDim) (scale : Option Float32) : SymDim :=
  match scale with
  | none => .unknown
  | some s =>
    if s == 1 then d
    else
      match d.value? with
      | some n => .size (Binary32.toInt (Binary32.ofInt n.toInt * s))
      | none => .unknown

def scaledShape (x : SymShape) (scales : SymTensor) : Outcome RuleError SymShape := do
  .refuseIf (scales.dtype ≠ .float) (.type .scales)
  match x with
  | .unknown => return .unknown
  | .ranked ds =>
    let _ ← ((← scales.shape.declareRank 1).dim 0).refine (.ofSize ds.length)
    return .ranked (ds.zipIdx.map fun (d, k) => scaledDim d (scales.get k).float?)

def sizedShape (x : SymShape) (sizes : SymTensor) : Outcome RuleError SymShape := do
  .refuseIf (sizes.dtype ≠ .int) (.type .sizes)
  let shape ← sizes.toSizes
  match x.rank?, shape.rank? with
  | some rank, some count => .refuseIf (rank ≠ count) (.shape .sizesCount)
  | _, _ => pure ()
  return shape

/-- Scales come before sizes; parameters known to be empty count as omitted. -/
def infer (inputs : SymInputs) : Outcome RuleError (List SymTensor) := do
  let x ← inputs.demand 0
  .refuseIf (x.dtype ≠ .float) (.type .resizeInput)
  match nonEmpty (inputs.find? 2), nonEmpty (inputs.find? 3) with
  | some scales, _ => return [.ofShape x.dtype (← scaledShape x.shape scales)]
  | none, some sizes => return [.ofShape x.dtype (← sizedShape x.shape sizes)]
  | none, none => .error (.missingInput 2)

/-- The coordinate in an image of `input` pixels of a position in a result of `output` pixels. -/
def coordinate (mode : CoordinateMode) (i : Nat) (scale : Float32) (input output : Nat) :
    Float32 :=
  let dest := Binary32.ofNat i
  match mode with
  | .halfPixel => (dest + 0.5) / scale - 0.5
  | .asymmetric => dest / scale
  | .alignCorners =>
    if output > 1 then dest * Binary32.ofNat (input - 1) / Binary32.ofNat (output - 1) else 0
  | .halfPixelOrZero => if output > 1 then (dest + 0.5) / scale - 0.5 else 0

def heldCoordinate (mode : CoordinateMode) (i : Nat) (scale : Float32) (input output : Nat) :
    Float32 :=
  Binary32.clamp (coordinate mode i scale input output) 0 (Binary32.ofNat input - 1)

def roundCoordinate (mode : NearestMode) (x : Float32) : Nat :=
  let tie := Binary32.fraction x == 0.5
  let rounded := match mode with
    | .ceil => Binary32.ceil x
    | .floor => Binary32.floor x
    | .preferCeil => if tie then Binary32.ceil x else Binary32.round x
    | .preferFloor => if tie then Binary32.floor x else Binary32.round x
  Binary32.toSize (Binary32.max rounded 0)

structure Image where
  rows : Nat
  columns : Nat
  pixels : List Float32

def Image.pixel {ε : Type} (image : Image) (row column : Nat) : Outcome ε Float32 :=
  .ofOption image.pixels[row * image.columns + column]?

def sample {ε : Type} (op : Resize) (image : Image) (y x : Float32) : Outcome ε Float32 :=
  match op.interpolation with
  | .nearest =>
    image.pixel (min (roundCoordinate op.nearest y) (image.rows - 1))
      (min (roundCoordinate op.nearest x) (image.columns - 1))
  | .linear => do
    let top := Binary32.toSize y
    let left := Binary32.toSize x
    let bottom := min (top + 1) (image.rows - 1)
    let right := min (left + 1) (image.columns - 1)
    let v := y - Binary32.ofNat top
    let u := x - Binary32.ofNat left
    let upper := (1 - u) * (← image.pixel top left) + u * (← image.pixel top right)
    let lower := (1 - u) * (← image.pixel bottom left) + u * (← image.pixel bottom right)
    return (1 - v) * upper + v * lower

def resizeImage {ε : Type} (op : Resize) (image : Image) (rows columns : Nat)
    (scaleY scaleX : Float32) : Outcome ε (List Float32) := do
  let lines ← (List.range rows).mapM fun i =>
    (List.range columns).mapM fun j =>
      op.sample image (heldCoordinate op.coordinates i scaleY image.rows rows)
        (heldCoordinate op.coordinates j scaleX image.columns columns)
  return lines.flatten

def images (x : Tensor Float32) (rows columns : Nat) : List Image :=
  (List.range (x.count / (rows * columns))).map fun i =>
    ⟨rows, columns, (x.data.drop (i * (rows * columns))).take (rows * columns)⟩

def demandBatch (x out : Tensor Float32) : Outcome OpError Unit := do
  .refuseIf (x.rank < 2) (.unsupported .resizeRank)
  .refuseIf (((x.shape.take (x.rank - 2)).zip out.shape).any fun (m, n) => m ≠ n)
    (.unsupported .resizeBatch)

def fill (op : Resize) (scales : List Float32) (x out : Tensor Float32) :
    Outcome OpError (Tensor Float32) := do
  demandBatch x out
  if out.count = 0 then return out
  else
    let rows ← x.size (x.rank - 2)
    let columns ← x.size (x.rank - 1)
    let outRows ← out.size (x.rank - 2)
    let outColumns ← out.size (x.rank - 1)
    let scaleY ← .ofOption scales[x.rank - 2]?
    let scaleX ← .ofOption scales[x.rank - 1]?
    .refuseIf (rows = 0 ∨ columns = 0) (.value .emptyImage)
    let area := outRows * outColumns
    let sources := images x rows columns
    .demand (sources.length ≤ out.count / area ∨ out.count % area = 0)
    let results ← (sources.take (out.count / area)).mapM fun image =>
      op.resizeImage image outRows outColumns scaleY scaleX
    return out.overwrite results.flatten

def scalesFor (x out : Value) (given : Option (Tensor Float32)) : List Float32 :=
  match given with
  | some t => if t.count = 0 then quotients else t.data
  | none => quotients
where
  quotients : List Float32 :=
    (x.shape.zip out.shape).map fun (m, n) => Binary32.ofNat n / Binary32.ofNat m

def prepare (op : Resize) (inputs : ValueInputs) (outputs : List Value) :
    Outcome OpError Kernel := do
  let x ← inputs.demand 0
  let out ← Kernel.single outputs
  let given ← match inputs.find? 2 with
    | none => .ok none
    | some v => some <$> (v.cast Float32).mapError (.inputCast 2)
  return Kernel.floatOnly x out (op.fill (scalesFor x out given))

end Resize

end TensorGraph
