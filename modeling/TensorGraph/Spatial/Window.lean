import TensorGraph.Operator.Kernel

/-!
Windows that move over the spatial dimensions of an array, which follow the item and the channel.
A window has a size, moves by a stride, and spreads its positions by a dilation; the array may be
padded at both ends of each dimension.
-/

namespace TensorGraph

/-- How the spatial dimensions are padded: so that each size is divided by the stride and rounded
up, or by the listed counts at the starts and then at the ends. -/
inductive Padding where
  | same
  | fixed (pads : List Nat)
  deriving DecidableEq, Repr

def Padding.listed (pads : List (Nat × Nat)) : Padding :=
  .fixed (pads.map Prod.fst ++ pads.map Prod.snd)

inductive DimPadding where
  | same
  | fixed (start stop : Nat)
  deriving DecidableEq, Repr

/-- The padding of one of `rank` spatial dimensions; an empty list pads nothing. -/
def Padding.dim (p : Padding) (k rank : Nat) : Outcome RuleError DimPadding :=
  match p with
  | same => .ok .same
  | fixed [] => .ok (.fixed 0 0)
  | fixed pads => do
    .refuseIf (pads.length ≠ rank * 2) (.value .spatialPads)
    return .fixed (pads.getD k 0) (pads.getD (rank + k) 0)

namespace Window

variable {ε : Type}

def spatialRank (shape : Shape) : Outcome ε Nat := checkSub shape.length 2

/-- An attribute with one positive entry per spatial dimension; an empty list means ones. -/
def perDimension (values : List Nat) (rank : Nat) (conflict : ValueConflict) :
    Outcome RuleError (List Nat) :=
  if values.isEmpty then .ok (List.replicate rank 1)
  else if values.length ≠ rank ∨ values.contains 0 then .error (.value conflict)
  else .ok values

/-- The size that a window of `size` positions covers, `(size - 1) * dilation + 1`. -/
def span (size : SymDim) (dilation : Nat) : SymDim :=
  (size - .size 1) * .ofSize dilation + .size 1

/-- The last of `steps` steps is left out if the window would start behind the input and the padding
before it. -/
def trimSteps (steps input : SymDim) (stride : Int64) (start : Nat) : Outcome ε SymDim :=
  match steps, input with
  | .size n, .size size =>
    if n > 0 then do
      let last ← checkInt (n.toInt * stride.toInt)
      let limit ← checkInt (size.toInt + (intOfSize start).toInt)
      if last ≥ limit then return .size (← checkInt (n.toInt - 1)) else return steps
    else .ok steps
  | .size _, _ => .ok steps
  | _, _ => .ok .unknown

def stepCount (input size : SymDim) (stride dilation start stop : Nat) (ceil : Bool) :
    Outcome ε SymDim := do
  let padded := input + .ofSize (← checkSize (start + stop))
  let room := padded - span size dilation
  let step := SymDim.ofSize stride
  if ceil then trimSteps (← room.ceilDiv step) input (intOfSize stride) start
  else room.floorDiv step

/-- The number of places where a window can be put on a dimension. It is not positive for a window
that is larger than the padded input. -/
def placeCount (input size : SymDim) (stride dilation : Nat) (padding : DimPadding) (ceil : Bool) :
    Outcome ε SymDim :=
  match padding with
  | .same => input.ceilDiv (.ofSize stride)
  | .fixed start stop => do
    return (← stepCount input size stride dilation start stop ceil) + .size 1

def outputSize (input size : SymDim) (stride dilation : Nat) (padding : DimPadding)
    (ceil : Bool) : Outcome RuleError SymDim := do
  let count ← placeCount input size stride dilation padding ceil
  .refuseIf (count.value?.any (· < 1)) (.shape .kernelTooLarge)
  return count

/-- The pads at the start and the end of a dimension that make `output` places for a window. When
their sum is odd, the larger one is at the end. -/
def samePads (input output size stride dilation : Nat) : Outcome ε (Nat × Nat) := do
  let covered ← checkSize ((← checkSize ((← checkSub size 1) * dilation)) + 1)
  let moved ← checkSize ((output - 1) * stride)
  let needed := (← checkSize (moved + covered)) - input
  return (needed / 2, needed - needed / 2)

def resolvePads (padding : Padding) (input output size strides dilations : List Nat) :
    Outcome OpError (List (Nat × Nat)) :=
  (List.range input.length).mapM fun k => do
    match ← (padding.dim k input.length).mapError OpError.ofRule with
    | .fixed start stop => return (start, stop)
    | .same =>
      let n ← .ofOption size[k]?
      let out ← .ofOption output[k]?
      samePads (input.getD k 0) out n (strides.getD k 1) (dilations.getD k 1)

structure Motion where
  stride : Nat
  dilation : Nat
  padStart : Nat
  padStop : Nat
  deriving DecidableEq, Repr

/-- The position that element `k` of the window at place `i` stands on; it is negative in the
padding at the start. -/
def Motion.position (m : Motion) (i k : Nat) : Outcome ε Int64 := do
  let moved ← checkSize (i * m.stride)
  let spread ← checkSize (k * m.dilation)
  let sum ← checkSize (moved + spread)
  checkInt ((intOfSize sum).toInt - (intOfSize m.padStart).toInt)

def paddingOf (motions : List Motion) : Padding :=
  .listed (motions.map fun m => (m.padStart, m.padStop))

def motions (strides dilations : List Nat) (pads : List (Nat × Nat)) : List Motion :=
  (strides.zip (dilations.zip pads)).map fun (s, d, start, stop) => ⟨s, d, start, stop⟩

/-- The position that element `k` of the window at place `i` stands on, if that is inside an array
of the given sizes. -/
def inside : List Motion → List Nat → Index → Index → Outcome ε (Option Index)
  | [], _, _, _ => .ok (some [])
  | m :: ms, sizes, i :: is, k :: ks => do
    let p ← m.position i k
    if p < 0 then return none
    else
      match sizes with
      | [] => .fault
      | size :: sizes =>
        if size ≤ sizeOfInt p then return none
        else return (← inside ms sizes is ks).map (sizeOfInt p :: ·)
  | _, _, _, _ => .fault

end Window

end TensorGraph
