import TensorGraph.Indexing.Position

/-!
Elements and slices picked by index: slices along an axis, elements at given positions of lanes, and
slices at tuples of indices.
-/

namespace TensorGraph

structure Gather where
  axis : Int64
  deriving DecidableEq, Repr

namespace Gather

variable {α : Type}

/-- Known elements of a vector are picked by known indices. -/
def pick (elements : List SymElement) (output : SymTensor) (entry : SymElement × Nat) :
    Outcome RuleError SymTensor :=
  match entry.1.int? with
  | none => .ok output
  | some index => do
    let k ← (Indexing.resolve elements.length index).mapError fun _ => .value .indexRange
    return output.set entry.2 (elements.getD k .unknown)

/-- The dimensions of the indices take the place of the axis. -/
def infer (op : Gather) (inputs : SymInputs) : Outcome RuleError (List SymTensor) := do
  let x ← inputs.demand 0
  let indices ← inputs.demand 1
  Indexing.demandInts indices
  match x.shape, indices.shape with
  | .ranked ds, .ranked ids =>
    let dim ← Axis.resolve ds.length op.axis
    let output := SymTensor.ofShape x.dtype (.ranked (ds.take dim ++ ids ++ ds.drop (dim + 1)))
    match x.elements, indices.elements with
    | some elements, some entries =>
      if ds.length = 1 then return [← entries.zipIdx.foldlM (pick elements) output]
      else return [output]
    | _, _ => return [output]
  | _, _ => return [.unranked x.dtype]

def fill (x : Tensor α) (indices : Tensor Int64) (dim : Nat) (out : Tensor α) :
    Outcome OpError (Tensor α) := do
  let (outer, inner) ← x.outerInner dim
  let size ← x.size dim
  out.writeBlocks ((List.range outer).flatMap fun i => indices.data.map fun index => do
    let k ← Indexing.resolve size index
    x.block ((i * size + k) * inner) inner)

def prepare (op : Gather) (inputs : ValueInputs) (outputs : List Value) :
    Outcome OpError Kernel := do
  let x ← inputs.demand 0
  let indices ← inputs.demand 1
  let dim ← (Axis.resolve x.rank op.axis).mapError OpError.ofRule
  let out ← Kernel.single outputs
  return fun _ => do
    let indices ← Kernel.typed Int64 indices
    Kernel.sameType x out (fun x out => fill x indices dim out) ()

end Gather

/-- Elements at the positions along an axis that a tensor of indices gives. -/
structure GatherElements where
  axis : Int64
  deriving DecidableEq, Repr

namespace GatherElements

variable {α : Type}

def infer (op : GatherElements) (inputs : SymInputs) : Outcome RuleError (List SymTensor) := do
  let x ← inputs.demand 0
  let indices ← inputs.demand 1
  Indexing.demandInts indices
  match x.rank?, indices.rank? with
  | some rank, some indexRank =>
    .refuseIf (rank ≠ indexRank) (.rank .indexRank)
    let _ ← Axis.resolve rank op.axis
  | _, _ => pure ()
  return [.ofShape x.dtype indices.shape]

/-- The position that replaces the coordinate along a dimension by an index into `x`. -/
def target (x : Tensor α) (dim : Nat) (position : Index) (index : Int64) :
    Outcome OpError Index := do
  let k ← Indexing.resolve (← x.size dim) index
  .demand (dim < position.length)
  return position.set dim k

def fill (x : Tensor α) (indices : Tensor Int64) (dim : Nat) (out : Tensor α) :
    Outcome OpError (Tensor α) := do
  let positions ← Index.checkedAll indices.shape
  let entries := (positions.zip indices.data).take out.count
  let elements ← entries.mapM fun (position, index) => do
    .orRefuse (.value .indexRange) (x.get? (← target x dim position index))
  return out.overwrite elements

def prepare (op : GatherElements) (inputs : ValueInputs) (outputs : List Value) :
    Outcome OpError Kernel := do
  let x ← inputs.demand 0
  let indices ← inputs.demand 1
  let dim ← (Axis.resolve x.rank op.axis).mapError OpError.ofRule
  let out ← Kernel.single outputs
  return fun _ => do
    let indices ← Kernel.typed Int64 indices
    Kernel.sameType x out (fun x out => fill x indices dim out) ()

end GatherElements

/-- Slices at tuples of indices, which the last dimension of the indices lists. -/
structure GatherND where
  batchDims : Nat
  deriving DecidableEq, Repr

namespace GatherND

variable {α : Type}

/-- The tuples give way to the dimensions that they leave open. -/
def infer (op : GatherND) (inputs : SymInputs) : Outcome RuleError (List SymTensor) := do
  let x ← inputs.demand 0
  let indices ← inputs.demand 1
  Indexing.demandInts indices
  match x.shape, indices.shape with
  | .ranked ds, .ranked ids =>
    let b := op.batchDims
    .refuseIf (ids.isEmpty ∨ b ≥ ids.length ∨ b ≥ ds.length) (.rank .batchDims)
    let _ ← ((ds.take b).zip (ids.take b)).mapM fun (d, i) => d.refine i
    match (ids.getLastD .unknown).value? with
    | none => return [.unranked x.dtype]
    | some length =>
      let taken ← checkSize (b + sizeOfInt length)
      .refuseIf (taken > ds.length) (.shape .longTuples)
      return [.ofShape x.dtype (.ranked (ids.dropLast ++ ds.drop taken))]
  | _, _ => return [.unranked x.dtype]

/-- The positions along the dimensions from `first` on that the tuple at `place` of the indices
denotes; an index that is missing counts as zero. -/
def tuple (x : Tensor α) (indices : Tensor Int64) (first length : Nat) (place : Index) :
    Outcome OpError Index :=
  (List.range length).mapM fun i => do
    let size ← x.size (first + i)
    Indexing.resolve size ((indices.get? (place ++ [i])).getD 0)

def tupleLayout (indices : Tensor Int64) : Outcome OpError (Nat × Nat) := do
  let places ← checkSub indices.rank 1
  return (places, ← indices.size places)

def fill (op : GatherND) (x : Tensor α) (indices : Tensor Int64) (out : Tensor α) :
    Outcome OpError (Tensor α) := do
  let (places, length) ← tupleLayout indices
  let positions ← Index.checkedAll out.shape
  let elements ← positions.mapM fun position => do
    .demand (op.batchDims ≤ places ∧ places ≤ position.length)
    let place := position.take places
    let target ← tuple x indices op.batchDims length place
    .orRefuse (.value .indexRange)
      (x.get? (place.take op.batchDims ++ target ++ position.drop places))
  return out.overwrite elements

def prepare (op : GatherND) (inputs : ValueInputs) (outputs : List Value) :
    Outcome OpError Kernel := do
  let x ← inputs.demand 0
  let indices ← inputs.demand 1
  let out ← Kernel.single outputs
  return fun _ => do
    let indices ← Kernel.typed Int64 indices
    Kernel.sameType x out (fun x out => op.fill x indices out) ()

end GatherND

end TensorGraph
