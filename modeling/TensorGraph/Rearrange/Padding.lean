import TensorGraph.Operator.Kernel
import TensorGraph.Symbolic.Extent

/-!
Elements added at the ends of dimensions, or taken away by negative pads. The pads list the starts
of all padded dimensions and then their ends.
-/

namespace TensorGraph

/-- What added elements hold: a given value, the mirrored input, or its last element. -/
inductive PadMode where
  | constant
  | reflect
  | edge
  deriving DecidableEq, Repr

structure Pad where
  mode : PadMode
  deriving DecidableEq, Repr

namespace Pad

variable {ε α : Type}

/-- The pads of all dimensions, where `pads` lists those of `dims` in order. There have to be
enough. -/
def expand (pads : List α) (dims : List Nat) (rank : Nat) (zero : α) : Outcome ε (List α) :=
  dims.zipIdx.foldlM
    (fun full (dim, i) => do
      let start ← .ofOption pads[i]?
      let stop ← .ofOption pads[dims.length + i]?
      return (full.set dim start).set (rank + dim) stop)
    (List.replicate (rank * 2) zero)

/-- Whether a mode reads elements of a dimension that is known to be empty. -/
def readsEmpty (ds : List SymDim) (pads : List (Option Int64)) : Bool :=
  let starts := pads.take ds.length
  let stops := pads.drop ds.length
  (ds.zip (starts.zip stops)).any fun (d, start, stop) =>
    d == .size 0 && (start.any (· > 0) || stop.any (· > 0))

def outputShape (op : Pad) (s : SymShape) (pads : List (Option Int64)) :
    Outcome RuleError SymShape := do
  let padded ← s.pad pads
  .refuseIf (op.mode ≠ .constant && readsEmpty s.dims pads) (.value .emptyPadding)
  return padded

/-- The pads of all dimensions, if they are known, where axes may be listed. -/
def allPads (rank : Option Nat) (pads : List (Option Int64)) (axes : Option SymTensor) :
    Outcome RuleError (Option (List (Option Int64))) :=
  match axes, rank with
  | none, _ => .ok (some pads)
  | some _, none => .ok none
  | some axes, some rank =>
    match axes.ints? with
    | none => .ok none
    | some ns => do
      let dims ← Axis.resolveAll rank ns
      .refuseIf (pads.length ≠ dims.length * 2) (.value .axisPads)
      return some (← expand pads dims rank (some 0))

def infer (op : Pad) (inputs : SymInputs) : Outcome RuleError (List SymTensor) := do
  let x ← inputs.demand 0
  let pads ← inputs.demand 1
  .refuseIf (pads.dtype ≠ .int) (.type .pads)
  let _ ← pads.shape.declareRank 1
  .refuseIf ((inputs.find? 2).any (·.dtype ≠ x.dtype)) (.type .padValue)
  let unpadded := SymTensor.ofShape x.dtype (x.rank?.elim .unknown .ofRank)
  match pads.elements with
  | none => return [unpadded]
  | some es =>
    match ← allPads x.rank? (es.map (·.int?)) (inputs.find? 3) with
    | none => return [unpadded]
    | some pads => return [.ofShape x.dtype (← op.outputShape x.shape pads)]

def pads (rank : Nat) (inputs : ValueInputs) : Outcome OpError (List Int64) := do
  let pads ← inputs.demandInts 1
  match ← inputs.findInts? 3 with
  | none => return pads
  | some axes => expand pads (← (Axis.resolveAll rank axes).mapError OpError.ofRule) rank 0

/-- The position along a dimension of `size` elements that position `i` reads, which is nothing in
constant padding. Mirroring repeats with a period that leaves out both ends once. -/
def sourcePosition (mode : PadMode) (i size : Int64) : Outcome ε (Option Int64) :=
  if 0 ≤ i ∧ i < size then .ok (some i)
  else
    match mode with
    | .constant => .ok none
    | .edge => do
      return some (← clampInt i 0 (← checkInt (size.toInt - 1)))
    | .reflect =>
      if size = 1 then .ok (some 0)
      else do
        let period ← checkInt (2 * (← checkInt (size.toInt - 1)).toInt)
        let k ← checkInt (i.toInt % period.toInt)
        if k < size then return some k else return some (← checkInt (period.toInt - k.toInt))

/-- The position of the input that a position of the output reads, dimension by dimension, up to
the first one that is in constant padding. -/
def source (mode : PadMode) : Shape → List Int64 → Index → Outcome ε (Option Index)
  | [], _, _ => .ok (some [])
  | size :: shape, pad :: pads, i :: index => do
    let moved ← checkInt ((intOfSize i).toInt - pad.toInt)
    match ← sourcePosition mode moved (intOfSize size) with
    | none => return none
    | some k => return (← source mode shape pads index).map (sizeOfInt k :: ·)
  | _, _, _ => .fault

def fill (mode : PadMode) (x : Tensor α) (pads : List Int64) (value : α) (out : Tensor α) :
    Outcome ε (Tensor α) :=
  out.mapIndexedM fun index _ => do
    match ← source mode x.shape pads index with
    | none => return value
    | some k => return (x.get? k).getD value

def resolve (inputs : ValueInputs) : Outcome OpError ValueInputs := do
  let x ← inputs.demand 0
  let ps ← pads x.rank inputs
  return [some x, some (.int (.ofList ps)), inputs.find? 2]

def prepare (op : Pad) (inputs : ValueInputs) (outputs : List Value) : Outcome OpError Kernel := do
  let x ← inputs.demand 0
  let ps ← pads x.rank inputs
  let out ← Kernel.single outputs
  return Kernel.sameType x out fun x out => do
    let value ← Kernel.element? _ (inputs.find? 2)
    fill op.mode x ps (value.getD Element.zero) out

end Pad

end TensorGraph
