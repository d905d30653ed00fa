import TensorGraph.Operator.Kernel
import TensorGraph.Symbolic.Slice

/-!
Slices of a tensor: ranges of positions along some dimensions. The inputs after the data are the
starts, the ends, and optionally the axes and the steps.
-/

namespace TensorGraph.Slice

variable {ε α : Type}

/-- The elements of a parameter, each of which may be unknown, if their number is known. -/
def parameter (t : SymTensor) : Outcome RuleError (Option (List (Option Int64))) := do
  .refuseIf (t.dtype ≠ .int) (.type .sliceParameters)
  let _ ← t.shape.declareRank 1
  return t.elements.map (·.map (·.int?))

def optionalParameter (t : Option SymTensor) :
    Outcome RuleError (Option (Option (List (Option Int64)))) :=
  match t with
  | none => .ok none
  | some t => return some (← parameter t)

def slicedDims (rank count : Nat) (axes : Option (Option (List (Option Int64)))) :
    Outcome RuleError (Option (List Nat)) :=
  match axes with
  | none => .ok (some (List.range count))
  | some none => .ok none
  | some (some axes) =>
    match axes.mapM id with
    | none => .ok none
    | some axes => do
      .refuseIf (axes.length ≠ count) (.value .axesAndStarts)
      let _ ← Axis.resolveAll rank axes
      return some (← axes.mapM (Axis.resolve rank))

def slicedSteps (count : Nat) (steps : Option (Option (List (Option Int64)))) :
    Outcome RuleError (List (Option Int64)) :=
  match steps with
  | none => .ok (List.replicate count (some 1))
  | some none => .ok (List.replicate count none)
  | some (some steps) =>
    if steps.length = count then .ok steps else .error (.value .stepsAndStarts)

/-- A dimension to slice, and what is known of its start, end and step. -/
structure Cut where
  dim : Nat
  start : Option Int64
  stop : Option Int64
  step : Option Int64
  deriving DecidableEq, Repr

def zipCuts (dims : List Nat) (starts stops steps : List (Option Int64)) : List Cut :=
  (dims.zip (starts.zip (stops.zip steps))).map fun (dim, start, stop, step) =>
    ⟨dim, start, stop, step⟩

def cutDims (ds : List SymDim) (cuts : List Cut) : Outcome RuleError (List SymDim) :=
  cuts.foldlM
    (fun out c => do
      return out.set c.dim (← (ds.getD c.dim .unknown).slice c.start c.stop c.step))
    ds

def cutRange (d : SymDim) (c : Cut) : Outcome RuleError (Option SliceRange) :=
  match d.value?, c.start, c.stop, c.step with
  | some size, some start, some stop, some step =>
    return some (← SliceRange.resolve size start stop step)
  | _, _, _, _ => .ok none

def cutElements (x : SymTensor) (ds : List SymDim) (cuts : List Cut) (output : SymTensor) :
    Outcome RuleError SymTensor :=
  match ds, x.elements with
  | [d], some elements => do
    let range ← match cuts.getLast? with
      | none => .ok (some (SliceRange.full elements.length))
      | some c => cutRange d c
    match range with
    | none => return output
    | some r =>
      let positions ← (List.range r.len).mapM r.position
      return output.setLeading (positions.map x.get)
  | _, _ => .ok output

def infer (inputs : SymInputs) : Outcome RuleError (List SymTensor) := do
  let x ← inputs.demand 0
  let starts ← parameter (← inputs.demand 1)
  let stops ← parameter (← inputs.demand 2)
  let axes ← optionalParameter (inputs.find? 3)
  let steps ← optionalParameter (inputs.find? 4)
  match x.shape, starts, stops with
  | .unknown, _, _ => return [.unranked x.dtype]
  | .ranked ds, some starts, some stops =>
    .refuseIf (starts.length ≠ stops.length) (.value .startsAndEnds)
    match ← slicedDims ds.length starts.length axes with
    | none => return [.ofShape x.dtype (.ofRank ds.length)]
    | some dims =>
      .refuseIf (dims.any (· ≥ ds.length)) (.rank .sliceAxis)
      let steps ← slicedSteps starts.length steps
      let cuts := zipCuts dims starts stops steps
      let output := SymTensor.ofShape x.dtype (.ranked (← cutDims ds cuts))
      return [← cutElements x ds cuts output]
  | .ranked ds, _, _ => return [.ofShape x.dtype (.ofRank ds.length)]

/-- The range of positions along each dimension of a tensor of the given shape. -/
def ranges (shape : Shape) (inputs : ValueInputs) : Outcome OpError (List SliceRange) := do
  let starts ← inputs.demandInts 1
  let stops ← inputs.demandInts 2
  let axes := (← inputs.findInts? 3).getD ((List.range starts.length).map intOfSize)
  let steps := (← inputs.findInts? 4).getD (List.replicate starts.length 1)
  .refuseIf (stops.length ≠ starts.length ∨ axes.length ≠ starts.length ∨
    steps.length ≠ starts.length) (.value .sliceParameters)
  (axes.zip (starts.zip (stops.zip steps))).foldlM
    (fun ranges (axis, start, stop, step) => do
      let dim ← (Axis.resolve shape.length axis).mapError OpError.ofRule
      let size := intOfSize (shape.getD dim 0)
      return ranges.set dim
        (← (SliceRange.resolve size start stop step).mapError OpError.ofRule))
    (shape.map .full)

/-- The position of the input that a position of the output is read from. -/
def source (ranges : List SliceRange) (rank : Nat) (index : Index) : Outcome ε Index := do
  .demand (index.length ≤ rank)
  let selected ← (ranges.zip index).mapM fun (r, i) => r.position i
  return selected ++ List.replicate (rank - index.length) 0

def fill (x : Tensor α) (ranges : List SliceRange) (out : Tensor α) : Outcome ε (Tensor α) :=
  out.mapIndexedM fun index old => do
    return (x.get? (← source ranges x.rank index)).getD old

def prepare (inputs : ValueInputs) (outputs : List Value) : Outcome OpError Kernel := do
  let x ← inputs.demand 0
  let rs ← ranges x.shape inputs
  let out ← Kernel.single outputs
  return Kernel.sameType x out fun x out => fill x rs out

end TensorGraph.Slice
