import TensorGraph.Spatial.Window
import TensorGraph.Tensor

/-!
Convolutions of images with kernels, and transposed convolutions, which spread each element over a
window of the output. Channels fall into groups that are treated apart.
-/

namespace TensorGraph

namespace WeightedWindow

def demandFloat (inputs : SymInputs) : Outcome RuleError Unit :=
  .refuseIf (inputs.given.any (·.dtype ≠ .float)) (.type .convolution)

/-- The dimensions of the input and the weights, if both ranks are known. -/
def dims? (x weight : SymTensor) : Outcome RuleError (Option (List SymDim × List SymDim)) := do
  x.shape.demandRank 3
  weight.shape.demandRank 3
  match x.shape, weight.shape with
  | .ranked ds, .ranked ws =>
    .refuseIf (ds.length ≠ ws.length) (.rank .weightRank)
    return some (ds, ws)
  | _, _ => return none

/-- Refuses a bias that does not have one entry per channel. -/
def demandBias (bias : Option SymTensor) (channels : SymDim) : Outcome RuleError Unit :=
  match bias with
  | none => .ok ()
  | some b => do
    let _ ← ((← b.shape.declareRank 1).dim 0).refine channels

def biasOf (bias : Option (Tensor Float32)) (channel : Nat) : Float32 :=
  (bias.bind (·.data[channel]?)).getD 0

/-- Item, channel and spatial coordinates of a position, which has to have the first two. -/
def splitIndex {ε : Type} (index : Index) : Outcome ε (Nat × Nat × Index) :=
  match index with
  | n :: c :: rest => .ok (n, c, rest)
  | _ => .fault

/-- A position in an array of a given rank, zero along dimensions that are left. -/
def padIndex (rank : Nat) (index : Index) : Index :=
  index ++ List.replicate (rank - index.length) 0

/-- How the windows of a convolution move, and into how many groups its channels fall. -/
structure Geometry where
  motions : List Window.Motion
  groups : Nat
  deriving DecidableEq, Repr

end WeightedWindow

/-- A convolution with weights of shape output channels, input channels per group, and window. -/
structure Conv where
  padding : Padding
  strides : List Nat
  dilations : List Nat
  groups : Nat
  deriving DecidableEq, Repr

namespace Conv

open WeightedWindow

def spatialSizes (op : Conv) (ds ws : List SymDim) (strides dilations : List Nat) :
    Outcome RuleError (List SymDim) :=
  let rank := ds.length - 2
  (List.range rank).mapM fun k => do
    Window.outputSize (ds.getD (2 + k) .unknown) (ws.getD (2 + k) .unknown) (strides.getD k 1)
      (dilations.getD k 1) (← op.padding.dim k rank) false

def infer (op : Conv) (inputs : SymInputs) : Outcome RuleError (List SymTensor) := do
  let x ← inputs.demand 0
  let weight ← inputs.demand 1
  demandFloat inputs
  .refuseIf (op.groups = 0) (.value .zeroGroups)
  match ← dims? x weight with
  | none => return [.unranked .float]
  | some (ds, ws) =>
    let rank := ds.length - 2
    let strides ← Window.perDimension op.strides rank .strides
    let dilations ← Window.perDimension op.dilations rank .dilations
    let groups := intOfSize op.groups
    let _ ← (ds.getD 1 .unknown).refine (ws.getD 1 .unknown * .size groups)
    let channels := ws.getD 0 .unknown
    match channels.value? with
    | some n => .refuseIf ((← remInt n groups) ≠ 0) (.shape .groupedChannels)
    | none => pure ()
    demandBias (inputs.find? 2) channels
    let sizes ← op.spatialSizes ds ws strides dilations
    return [.ofShape .float (.ranked (ds.getD 0 .unknown :: channels :: sizes))]

def geometry (op : Conv) (x weight out : Shape) : Outcome OpError Geometry := do
  let rank ← Window.spatialRank x
  let strides ← (Window.perDimension op.strides rank .strides).mapError OpError.ofRule
  let dilations ← (Window.perDimension op.dilations rank .dilations).mapError OpError.ofRule
  .demand (2 ≤ out.length ∧ 2 ≤ weight.length)
  let pads ← Window.resolvePads op.padding (x.drop 2) (out.drop 2) (weight.drop 2) strides dilations
  return ⟨Window.motions strides dilations pads, op.groups⟩

/-- The products that an output element sums up: those of one input channel of its group and one
element of the window that stands inside the input. -/
def products {ε : Type} (g : Geometry) (x weight : Tensor Float32) (n c group : Nat)
    (place : Index) : Outcome ε (List Float32) := do
  let channels ← weight.size 1
  let window ← Index.checkedAll (weight.shape.drop 2)
  let terms ← ((List.range channels).flatMap fun i => window.map fun k => (i, k)).mapM
    fun (i, k) => do
      match ← Window.inside g.motions (x.shape.drop 2) place k with
      | none => return none
      | some p =>
        let w := padIndex weight.rank (c :: i :: k.take g.motions.length)
        match x.get? (n :: (group * channels + i) :: p), weight.get? w with
        | some a, some b => return some (a * b)
        | _, _ => return none
  return terms.filterMap id

def fill (g : Geometry) (x weight : Tensor Float32) (bias : Option (Tensor Float32))
    (out : Tensor Float32) : Outcome OpError (Tensor Float32) := do
  let _ ← weight.size 1
  .demand (g.groups ≠ 0)
  let perGroup := max ((← weight.size 0) / g.groups) 1
  out.mapIndexedM fun index _ => do
    let (n, c, place) ← splitIndex index
    let terms ← products g x weight n c (c / perGroup) place
    return terms.foldl (· + ·) (biasOf bias c)

/-- The convolution with the strides, dilations and pads of all dimensions listed. -/
def resolve (op : Conv) (inputs : ValueInputs) (outputs : List Value) : Outcome OpError Conv := do
  let x ← inputs.demand 0
  let weight ← inputs.demand 1
  let out ← Kernel.single outputs
  let g ← op.geometry x.shape weight.shape out.shape
  return { op with
    padding := Window.paddingOf g.motions
    strides := g.motions.map (·.stride)
    dilations := g.motions.map (·.dilation) }

def prepare (op : Conv) (inputs : ValueInputs) (outputs : List Value) : Outcome OpError Kernel := do
  let x ← inputs.demand 0
  let weight ← inputs.demand 1
  let out ← Kernel.single outputs
  let g ← op.geometry x.shape weight.shape out.shape
  return fun _ => do
    let bias ← Kernel.typed? Float32 (inputs.find? 2)
    Kernel.floatOnly x out
      (fun x out => do fill g x (← Kernel.typed Float32 weight) bias out) ()

end Conv

/-- A transposed convolution with weights of shape input channels, output channels per group, and
window. -/
structure ConvTranspose where
  padding : Padding
  strides : List Nat
  dilations : List Nat
  groups : Nat
  outputPadding : List Nat
  deriving DecidableEq, Repr

namespace ConvTranspose

open WeightedWindow

def spreadSize (input window : SymDim) (stride dilation extra : Nat) (padding : DimPadding) :
    Outcome RuleError SymDim :=
  match padding with
  | .same => .ok (input * .ofSize stride)
  | .fixed start stop => do
    let pads ← checkSize (start + stop)
    return (input - .size 1) * .ofSize stride + Window.span window dilation + .ofSize extra -
      .ofSize pads

def spatialSize (input window : SymDim) (stride dilation extra : Nat) (padding : DimPadding) :
    Outcome RuleError SymDim := do
  let size ← spreadSize input window stride dilation extra padding
  .refuseIf (size.value?.any (· < 1)) (.shape .paddingTooLarge)
  return size

def spatialSizes (op : ConvTranspose) (ds ws : List SymDim) (strides dilations extra : List Nat) :
    Outcome RuleError (List SymDim) :=
  let rank := ds.length - 2
  (List.range rank).mapM fun k => do
    spatialSize (ds.getD (2 + k) .unknown) (ws.getD (2 + k) .unknown) (strides.getD k 1)
      (dilations.getD k 1) (extra.getD k 0) (← op.padding.dim k rank)

/-- The elements added at the ends of the spatial dimensions; an empty list adds none. -/
def extraSizes (op : ConvTranspose) (rank : Nat) : Outcome RuleError (List Nat) :=
  if op.outputPadding.isEmpty then .ok (List.replicate rank 0)
  else if op.outputPadding.length = rank then .ok op.outputPadding
  else .error (.value .outputPadding)

def infer (op : ConvTranspose) (inputs : SymInputs) : Outcome RuleError (List SymTensor) := do
  let x ← inputs.demand 0
  let weight ← inputs.demand 1
  demandFloat inputs
  .refuseIf (op.groups = 0) (.value .zeroGroups)
  match ← dims? x weight with
  | none => return [.unranked .float]
  | some (ds, ws) =>
    let rank := ds.length - 2
    let strides ← Window.perDimension op.strides rank .strides
    let dilations ← Window.perDimension op.dilations rank .dilations
    let extra ← op.extraSizes rank
    let _ ← (ds.getD 1 .unknown).refine (ws.getD 0 .unknown)
    let channels := ws.getD 1 .unknown * .ofSize op.groups
    demandBias (inputs.find? 2) channels
    let sizes ← op.spatialSizes ds ws strides dilations extra
    return [.ofShape .float (.ranked (ds.getD 0 .unknown :: channels :: sizes))]

/-- The pads that make the result `output` elements long. -/
def samePads {ε : Type} (input output window stride dilation : Nat) : Outcome ε (Nat × Nat) := do
  let covered ← checkSize ((← checkSize ((← checkSub window 1) * dilation)) + 1)
  let moved ← checkSize ((← checkSub input 1) * stride)
  let total := (← checkSize (moved + covered)) - output
  return (total / 2, total - total / 2)

def geometry (op : ConvTranspose) (x weight out : Shape) : Outcome OpError Geometry := do
  let rank ← Window.spatialRank x
  let strides ← (Window.perDimension op.strides rank .strides).mapError OpError.ofRule
  let dilations ← (Window.perDimension op.dilations rank .dilations).mapError OpError.ofRule
  let pads ← (List.range rank).mapM fun k => do
    match ← (op.padding.dim k rank).mapError OpError.ofRule with
    | .fixed start stop => return (start, stop)
    | .same =>
      let window ← .ofOption weight[2 + k]?
      let output ← .ofOption out[2 + k]?
      samePads (x.getD (2 + k) 0) output window (strides.getD k 1) (dilations.getD k 1)
  return ⟨Window.motions strides dilations pads, op.groups⟩

/-- What one input element adds to the output: for each output channel of its group, its products
with the window that starts at its place, as far as that lies inside the output. -/
def contributions {ε : Type} (g : Geometry) (weight : Tensor Float32) (out : Shape)
    (perGroup : Nat) (index : Index) (a : Float32) : Outcome ε (List (Index × Float32)) := do
  let (n, c, place) ← splitIndex index
  .demand (0 < out.length)
  let channels ← weight.size 1
  let window ← Index.checkedAll (weight.shape.drop 2)
  let terms ← (List.range channels).mapM fun j => do
    .demand (1 < out.length)
    window.mapM fun k => do
      match ← Window.inside g.motions (out.drop 2) place k with
      | none => return none
      | some p =>
        let target := padIndex out.length (n :: (c / perGroup * channels + j) :: p)
        let w := padIndex weight.rank (c :: j :: k.take g.motions.length)
        return (weight.get? w).map fun b => (target, a * b)
  return terms.flatten.filterMap id

/-- The tensor with a number added at a position; a position outside is passed over. -/
def addAt (t : Tensor Float32) (term : Index × Float32) : Tensor Float32 :=
  match t.get? term.1 with
  | some y => t.write [(term.1, y + term.2)]
  | none => t

def fill (g : Geometry) (x weight : Tensor Float32) (bias : Option (Tensor Float32))
    (out : Tensor Float32) : Outcome OpError (Tensor Float32) := do
  .demand (g.groups ≠ 0)
  let perGroup := max ((← weight.size 0) / g.groups) 1
  .demand (2 ≤ weight.rank)
  let out ← out.mapIndexedM fun index _ => do
    let (_, c, _) ← splitIndex index
    return biasOf bias c
  let positions ← Index.checkedAll x.shape
  let terms ← (positions.zip x.data).mapM fun (index, a) =>
    contributions g weight out.shape perGroup index a
  return terms.flatten.foldl addAt out

/-- The convolution with the strides, dilations and pads of all dimensions listed. -/
def resolve (op : ConvTranspose) (inputs : ValueInputs) (outputs : List Value) :
    Outcome OpError ConvTranspose := do
  let x ← inputs.demand 0
  let weight ← inputs.demand 1
  let out ← Kernel.single outputs
  let g ← op.geometry x.shape weight.shape out.shape
  return { op with
    padding := Window.paddingOf g.motions
    strides := g.motions.map (·.stride)
    dilations := g.motions.map (·.dilation) }

def prepare (op : ConvTranspose) (inputs : ValueInputs) (outputs : List Value) :
    Outcome OpError Kernel := do
  let x ← inputs.demand 0
  let weight ← inputs.demand 1
  let out ← Kernel.single outputs
  let g ← op.geometry x.shape weight.shape out.shape
  return fun _ => do
    let bias ← Kernel.typed? Float32 (inputs.find? 2)
    Kernel.floatOnly x out
      (fun x out => do fill g x (← Kernel.typed Float32 weight) bias out) ()

end ConvTranspose

end TensorGraph
