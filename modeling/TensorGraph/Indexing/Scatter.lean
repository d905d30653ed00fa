import TensorGraph.Indexing.Gather

/-!
Updates written into a copy of a tensor, at positions of lanes or at tuples of indices. An update
replaces the element that is there, or combines with it.
-/

namespace TensorGraph

inductive Combination where
  | replace
  | add
  | mul
  | min
  | max
  deriving DecidableEq, Repr

/-- The combined element. Sums and products of integers fault on overflow. -/
def Combination.apply {ε α : Type} [Element α] (c : Combination) (current update : α) :
    Outcome ε α :=
  match c with
  | replace => .ok update
  | add => Element.add current update
  | mul => Element.mul current update
  | min => .ok (if Element.less update current then update else current)
  | max => .ok (if Element.less current update then update else current)

namespace Scatter

variable {α : Type}

def output (x updates : SymTensor) : Outcome RuleError SymTensor := do
  .refuseIf (updates.dtype ≠ x.dtype) (.type .updates)
  return .ofShape x.dtype x.shape

/-- The output with the elements of `x`, of which there have to be as many. -/
def copyOf (x out : Tensor α) : Outcome OpError (Tensor α) := do
  .demand (out.count = x.count)
  return out.overwrite x.data

def update [Element α] (c : Combination) (out : Tensor α) (index : Index) (a : α) :
    Outcome OpError (Tensor α) := do
  let current ← .orRefuse (.value .indexRange) (out.get? index)
  .ofOption (out.set? index (← c.apply current a))

end Scatter

/-- Updates at the positions along an axis that a tensor of indices gives. -/
structure ScatterElements where
  axis : Int64
  combination : Combination
  deriving DecidableEq, Repr

namespace ScatterElements

variable {α : Type}

def infer (op : ScatterElements) (inputs : SymInputs) : Outcome RuleError (List SymTensor) := do
  let x ← inputs.demand 0
  let indices ← inputs.demand 1
  let updates ← inputs.demand 2
  Indexing.demandInts indices
  let _ ← indices.shape.refine updates.shape
  match x.rank?, indices.rank? with
  | some rank, some indexRank =>
    .refuseIf (rank ≠ indexRank) (.rank .indexRank)
    let _ ← Axis.resolve rank op.axis
  | _, _ => pure ()
  return [← Scatter.output x updates]

def fill [Element α] (op : ScatterElements) (x : Tensor α) (indices : Tensor Int64)
    (updates : Tensor α) (dim : Nat) (out : Tensor α) : Outcome OpError (Tensor α) := do
  let out ← Scatter.copyOf x out
  let positions ← Index.checkedAll indices.shape
  (positions.zip (indices.data.zip updates.data)).foldlM
    (fun out (position, index, a) => do
      Scatter.update op.combination out (← GatherElements.target x dim position index) a)
    out

def prepare (op : ScatterElements) (inputs : ValueInputs) (outputs : List Value) :
    Outcome OpError Kernel := do
  let x ← inputs.demand 0
  let indices ← inputs.demand 1
  let updates ← inputs.demand 2
  let dim ← (Axis.resolve x.rank op.axis).mapError OpError.ofRule
  let out ← Kernel.single outputs
  return fun _ => do
    let indices ← Kernel.typed Int64 indices
    Kernel.sameType x out
      (fun x out => do op.fill x indices (← Kernel.typed _ updates) dim out) ()

end ScatterElements

/-- Updates of slices at tuples of indices, which the last dimension of the indices lists. -/
structure ScatterND where
  combination : Combination
  deriving DecidableEq, Repr

namespace ScatterND

variable {α : Type}

/-- Refuses updates whose shape does not go with the data and the indices. -/
def demandShape (x indices updates : SymShape) : Outcome RuleError Unit :=
  match x, indices, updates with
  | .ranked ds, .ranked ids, .ranked us => do
    .refuseIf ids.isEmpty (.rank .scalarIndices)
    match (ids.getLastD .unknown).value? with
    | none => return ()
    | some length =>
      let length := sizeOfInt length
      .refuseIf (length > ds.length) (.shape .longTuples)
      let _ ← (SymShape.ranked us).refine (.ranked (ids.dropLast ++ ds.drop length))
  | _, _, _ => .ok ()

def infer (inputs : SymInputs) : Outcome RuleError (List SymTensor) := do
  let x ← inputs.demand 0
  let indices ← inputs.demand 1
  let updates ← inputs.demand 2
  Indexing.demandInts indices
  demandShape x.shape indices.shape updates.shape
  return [← Scatter.output x updates]

def fill [Element α] (op : ScatterND) (x : Tensor α) (indices : Tensor Int64) (updates : Tensor α)
    (out : Tensor α) : Outcome OpError (Tensor α) := do
  let out ← Scatter.copyOf x out
  let (places, length) ← GatherND.tupleLayout indices
  let positions ← Index.checkedAll updates.shape
  (positions.zip updates.data).foldlM
    (fun out (position, a) => do
      .demand (places ≤ position.length)
      let target ← GatherND.tuple x indices 0 length (position.take places)
      Scatter.update op.combination out (target ++ position.drop places) a)
    out

def prepare (op : ScatterND) (inputs : ValueInputs) (outputs : List Value) :
    Outcome OpError Kernel := do
  let x ← inputs.demand 0
  let indices ← inputs.demand 1
  let updates ← inputs.demand 2
  let out ← Kernel.single outputs
  return fun _ => do
    let indices ← Kernel.typed Int64 indices
    Kernel.sameType x out (fun x out => do op.fill x indices (← Kernel.typed _ updates) out) ()

end ScatterND

end TensorGraph
