import TensorGraph.Indexing.Position
import TensorGraph.Symbolic.Extent

/-!
Tensors joined along an axis, cut into consecutive pieces along one, or repeated along each as
often as the second input lists.
-/

namespace TensorGraph

structure Concat where
  axis : Int64
  deriving DecidableEq, Repr

namespace Concat

variable {ε α : Type}

/-- The dimensions on which ranked inputs agree outside the axis. -/
def agreeDims (dim : Nat) (xs ys : List SymDim) : Outcome RuleError (List SymDim) :=
  ((xs.zip ys).zipIdx).mapM fun ((x, y), k) => if k = dim then .ok x else x.refine y

/-- The shape of the join; the axis is known if all inputs are ranked. -/
def outputShape (op : Concat) (shapes : List SymShape) : Outcome RuleError SymShape :=
  match shapes.filterMap (·.dims?) with
  | [] => .ok .unknown
  | first :: rest => do
    .refuseIf (rest.any (·.length ≠ first.length)) (.rank .inputRanks)
    let dim ← Axis.resolve first.length op.axis
    let ds ← rest.foldlM (agreeDims dim) first
    let total := if rest.length + 1 = shapes.length then
        SymDim.total ((first :: rest).map (·.getD dim .unknown))
      else .unknown
    return .ranked (ds.set dim total)

def infer (op : Concat) (inputs : SymInputs) : Outcome RuleError (List SymTensor) := do
  let first ← inputs.demand 0
  let args := inputs.given
  .refuseIf (args.any (·.dtype ≠ first.dtype)) (.type .inputTypes)
  let shape ← op.outputShape (args.map (·.shape))
  let output := SymTensor.ofShape first.dtype shape
  match shape.rank?, args.mapM (·.elements) with
  | some 1, some elements => return [output.setLeading elements.flatten]
  | _, _ => return [output]

def fill (inputs : List (Tensor α)) (dim : Nat) (out : Tensor α) : Outcome ε (Tensor α) := do
  .demand (dim < out.rank)
  let (outer, inner) ← out.outerInner dim
  out.writeBlocks ((List.range outer).flatMap fun i => inputs.map fun input => do
    let length ← checkSize ((← input.size dim) * inner)
    input.block (i * length) length)

def prepare (op : Concat) (inputs : ValueInputs) (outputs : List Value) :
    Outcome OpError Kernel := do
  let xs ← inputs.mapM (Outcome.orRefuse .missingInputs)
  let first ← .ofOption xs.head?
  let dim ← (Axis.resolve first.rank op.axis).mapError OpError.ofRule
  let out ← Kernel.single outputs
  return Kernel.anyOutput out fun {α} _ out => do
    fill (← xs.mapM (Kernel.typed α)) dim out

end Concat

/-- Consecutive pieces along an axis, whose sizes the second input lists. -/
structure Split where
  axis : Int64
  count : Nat
  deriving DecidableEq, Repr

namespace Split

variable {ε α : Type}

def unknownSizes (op : Split) : Outcome ε (List SymDim) := do
  checkRoom op.count SymDim.bytes
  return List.replicate op.count .unknown

/-- The sizes that the second input lists, which have to add up to the size of the axis. -/
def listedSizes (op : Split) (d : SymDim) (sizes : SymTensor) :
    Outcome RuleError (List SymDim) := do
  .refuseIf (sizes.dtype ≠ .int) (.type .split)
  match ← sizes.toSizes with
  | .unknown => op.unknownSizes
  | .ranked ds =>
    .refuseIf (ds.length ≠ op.count) (.value .splitCount)
    .refuseIf (ds.any fun s => s.value?.any (· < 0)) (.value .negativeSplit)
    match (SymDim.total ds).value?, d.value? with
    | some total, some size => .refuseIf (total ≠ size) (.shape .splitTotal)
    | _, _ => pure ()
    return ds

/-- Sizes of `count` pieces of `left` elements, each as large as `piece` as long as there are
enough. -/
def evenSizes (piece : Nat) : Nat → Nat → List SymDim
  | 0, _ => []
  | count + 1, left => .ofSize (min piece left) :: evenSizes piece count (left - min piece left)

def sizes (op : Split) (d : SymDim) (listed : Option SymTensor) : Outcome RuleError (List SymDim) :=
  match listed with
  | some t => op.listedSizes d t
  | none =>
    match d.value? with
    | none => op.unknownSizes
    | some n => do
      checkRoom op.count SymDim.bytes
      let size := sizeOfInt n
      let piece := (size + op.count - 1) / op.count
      return evenSizes piece op.count size

/-- The piece of a tensor that starts at a position along the axis, if that is known. -/
def piece (x : SymTensor) (ds : List SymDim) (dim : Nat) (start : Option Nat) (size : SymDim) :
    SymTensor :=
  let output := SymTensor.ofShape x.dtype (.ranked (ds.set dim size))
  match start, size.value? with
  | some start, some n =>
    if ds.length = 1 ∧ x.elements.isSome then
      { output with elements := output.elements.map fun es => es.zipIdx.map fun (e, i) =>
          if i < sizeOfInt n then x.get (start + i) else e }
    else output
  | _, _ => output

def pieces (x : SymTensor) (ds : List SymDim) (dim : Nat) :
    Option Nat → List SymDim → Outcome ε (List SymTensor)
  | _, [] => .ok []
  | start, size :: sizes => do
    let next ← match start, size.value? with
      | some start, some n => some <$> checkSize (start + sizeOfInt n)
      | _, _ => .ok none
    return piece x ds dim start size :: (← pieces x ds dim next sizes)

def descriptionBytes : Nat := 144

def infer (op : Split) (inputs : SymInputs) : Outcome RuleError (List SymTensor) := do
  let x ← inputs.demand 0
  .refuseIf (op.count = 0) (.value .noOutputs)
  match x.shape with
  | .unknown =>
    checkRoom op.count descriptionBytes
    return List.replicate op.count (.unranked x.dtype)
  | .ranked ds =>
    let dim ← Axis.resolve ds.length op.axis
    let sizes ← op.sizes (ds.getD dim .unknown) (inputs.find? 1)
    pieces x ds dim (some 0) sizes

/-- The output whose piece starts at `start` of each run of `total` elements. -/
def fillPiece (x : Tensor α) (outer total : Nat) (start length : Nat) (out : Tensor α) :
    Outcome ε (Tensor α) :=
  out.writeBlocks ((List.range outer).map fun i => x.block (i * total + start) length)

/-- Fills each output with its piece; `start` is where the next piece begins in a run. -/
def fillPieces (x : Tensor α) (outer total : Nat) :
    Nat → List (Nat × Tensor α) → Outcome ε (List (Tensor α))
  | _, [] => .ok []
  | start, (length, out) :: rest => do
    let out ← fillPiece x outer total start length out
    return out :: (← fillPieces x outer total (start + length) rest)

def fill (x : Tensor α) (dim : Nat) (outs : List (Tensor α)) : Outcome ε (List (Tensor α)) := do
  let (outer, inner) ← x.outerInner dim
  if outer = 0 then return outs
  else
    let lengths ← outs.mapM fun out => do checkSize ((← out.size dim) * inner)
    fillPieces x outer (lengths.foldr (· + ·) 0) 0 (lengths.zip outs)

def prepare (op : Split) (inputs : ValueInputs) (outputs : List Value) :
    Outcome OpError Kernel := do
  let x ← inputs.demand 0
  let dim ← (Axis.resolve x.rank op.axis).mapError OpError.ofRule
  return fun _ =>
    match x with
    | .float x => do
      let outs ← fill x dim (← outputs.mapM (Kernel.typed Float32))
      return some (outs.map .float)
    | .int x => do
      let outs ← fill x dim (← outputs.mapM (Kernel.typed Int64))
      return some (outs.map .int)

end Split

namespace Tile

variable {ε α : Type}

def infer (inputs : SymInputs) : Outcome RuleError (List SymTensor) := do
  let x ← inputs.demand 0
  let repeats ← inputs.demand 1
  .refuseIf (repeats.dtype ≠ .int) (.type .repeats)
  match ← repeats.toSizes with
  | .unknown => return [.ofShape x.dtype (x.rank?.elim .unknown .ofRank)]
  | .ranked rs => return [.ofShape x.dtype (← x.shape.tile rs)]

/-- The position of the input that a position of the output repeats. -/
def source (x : Tensor α) (index : Index) : Outcome ε Index := do
  .demand (index.length ≤ x.rank)
  let wrapped ← (index.zip x.shape).mapM fun (i, size) => do
    .demand (size ≠ 0)
    return i % size
  return wrapped ++ List.replicate (x.rank - index.length) 0

def fill (x out : Tensor α) : Outcome ε (Tensor α) :=
  out.mapIndexedM fun index old => do return (x.get? (← source x index)).getD old

def prepare (inputs : ValueInputs) (outputs : List Value) : Outcome OpError Kernel := do
  let x ← inputs.demand 0
  let out ← Kernel.single outputs
  return Kernel.sameType x out fun x out => fill x out

end Tile

end TensorGraph
