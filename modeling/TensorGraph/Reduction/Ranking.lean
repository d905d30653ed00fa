import TensorGraph.Operator.Kernel
import TensorGraph.Tensor

/-!
The extreme elements of each lane along an axis: the position of the greatest or least one, and the
greatest or least ones with their positions. Of equal elements the one at the lower position comes
first, unless the last is asked for.
-/

namespace TensorGraph

inductive Extremum where
  | max
  | min
  deriving DecidableEq, Repr

/-- The position of the extreme element of each lane along an axis. -/
structure ArgReduce where
  extremum : Extremum
  axis : Int64
  keepDims : Bool
  /-- Whether the last of equal extreme elements is taken, rather than the first. -/
  takeLast : Bool
  deriving DecidableEq, Repr

namespace ArgReduce

variable {ε α : Type}

def name (op : ArgReduce) : String :=
  match op.extremum with
  | .max => "ArgMax"
  | .min => "ArgMin"

def infer (op : ArgReduce) (inputs : SymInputs) : Outcome RuleError (List SymTensor) := do
  let x ← inputs.demand 0
  match x.rank? with
  | some rank =>
    let dim ← Axis.resolve rank op.axis
    .refuseIf (x.shape.dim dim = .size 0) (.value .emptyAxis)
  | none => pure ()
  return [.ofShape .int (← x.shape.reduce (some [op.axis]) op.keepDims)]

def better [Element α] (op : ArgReduce) (a best : α) : Bool :=
  (match op.extremum with
    | .max => Element.less best a
    | .min => Element.less a best) || (op.takeLast && Element.same a best)

/-- The position of the best element of a lane, zero if it is empty. -/
def bestPosition [Element α] (op : ArgReduce) (lane : List α) : Nat :=
  let best := lane.zipIdx.foldl
    (fun (best : Option (α × Nat)) entry =>
      match best with
      | some b => if op.better entry.1 b.1 then some entry else some b
      | none => some entry)
    none
  best.elim 0 Prod.snd

def fill [Element α] (op : ArgReduce) (x : Tensor α) (dim : Nat) (out : Tensor Int64) :
    Outcome ε (Tensor Int64) := do
  return out.overwrite ((← x.lanes [dim]).map fun lane => intOfSize (op.bestPosition lane))

def prepare (op : ArgReduce) (inputs : ValueInputs) (outputs : List Value) :
    Outcome OpError Kernel := do
  let x ← inputs.demand 0
  let dim ← (Axis.resolve x.rank op.axis).mapError OpError.ofRule
  let out ← Kernel.single outputs
  return Kernel.intOutput out fun out =>
    match x with
    | .float x => op.fill x dim out
    | .int x => op.fill x dim out

end ArgReduce

/-- The best elements along an axis; the second input tells how many. -/
structure TopK where
  axis : Int64
  largest : Bool
  /-- Whether the best element comes first, rather than the one at the lowest position. -/
  sorted : Bool
  deriving DecidableEq, Repr

namespace TopK

variable {ε α : Type}

def takenDim (k : SymTensor) : Outcome RuleError SymDim :=
  match k.ints? with
  | some [k] => if k < 0 then .error (.value .negativeCount) else .ok (.size k)
  | some _ => .error (.value .countElements)
  | none => .ok .unknown

/-- The shape of the input with the number of taken elements along the axis. -/
def outputShape (op : TopK) (shape : SymShape) (taken : SymDim) : Outcome RuleError SymShape :=
  match shape.rank? with
  | none => .ok shape
  | some rank => do
    let dim ← Axis.resolve rank op.axis
    match taken.value?, (shape.dim dim).value? with
    | some k, some size => .refuseIf (size < k) (.value .largeCount)
    | _, _ => pure ()
    return shape.setDim dim taken

def infer (op : TopK) (inputs : SymInputs) : Outcome RuleError (List SymTensor) := do
  let x ← inputs.demand 0
  let taken ← takenDim (← inputs.demand 1)
  let shape ← op.outputShape x.shape taken
  return [.ofShape x.dtype shape, .ofShape .int shape]

def comesBefore [Element α] (op : TopK) (a b : Nat × α) : Bool :=
  let less := if op.largest then Element.less b.2 a.2 else Element.less a.2 b.2
  let greater := if op.largest then Element.less a.2 b.2 else Element.less b.2 a.2
  less || (!greater && a.1 < b.1)

/-- Puts an entry into a list that is ordered from the last to the first. -/
def insertEntry (before : Nat × α → Nat × α → Bool) (a : Nat × α) : List (Nat × α) → List (Nat × α)
  | [] => [a]
  | b :: bs => if before a b then b :: insertEntry before a bs else a :: b :: bs

/-- The entries in order; entries that come before each other in neither way keep theirs. -/
def arrange (before : Nat × α → Nat × α → Bool) (entries : List (Nat × α)) : List (Nat × α) :=
  (entries.foldl (fun sorted a => insertEntry before a sorted) []).reverse

def select [Element α] (op : TopK) (k : Nat) (lane : List α) : List (Nat × α) :=
  let entries := lane.zipIdx.map fun (a, i) => (i, a)
  let taken := (arrange op.comesBefore entries).take k
  if op.sorted then taken else arrange (fun a b => a.1 < b.1) taken

def entryBytes : Nat := 16

/-- Whether the entries of a lane can be sorted. Up to twenty are inserted one by one; sorting more
may fail unless their order is total, to which NaN does not belong. -/
def Sortable [Element α] (lane : List α) : Prop :=
  lane.length ≤ 20 ∨ ∀ a ∈ lane, Element.same a a = true

instance [Element α] (lane : List α) : Decidable (Sortable lane) :=
  inferInstanceAs (Decidable (_ ∨ _))

/-- Fills the values and the positions with the taken entries of each lane. -/
def fill [Element α] (op : TopK) (x : Tensor α) (dim : Nat) (values : Tensor α)
    (positions : Tensor Int64) : Outcome ε (Tensor α × Tensor Int64) := do
  let k ← values.size dim
  checkRoom (← x.size dim) entryBytes
  let starts ← x.laneStarts dim
  let lanes ← x.lanes [dim]
  .demand (∀ lane ∈ lanes, Sortable lane)
  let taken := (starts.zip lanes).flatMap fun (start, lane) =>
    (op.select k lane).zipIdx.map fun (entry, j) => (start.set dim j, entry)
  return (values.write (taken.map fun (index, _, a) => (index, a)),
    positions.write (taken.map fun (index, i, _) => (index, intOfSize i)))

def filledPair {α : Type} [Value.Stored α] (r : Tensor α × Tensor Int64) : Filled :=
  .ok (some [Value.Stored.wrap r.1, .int r.2])

def prepare (op : TopK) (inputs : ValueInputs) (outputs : List Value) :
    Outcome OpError Kernel := do
  let x ← inputs.demand 0
  let dim ← (Axis.resolve x.rank op.axis).mapError OpError.ofRule
  match outputs with
  | [values, positions] =>
    return fun _ =>
      match positions, x, values with
      | .int positions, .float x, .float values => do
        filledPair (← op.fill x dim values positions)
      | .int positions, .int x, .int values => do
        filledPair (← op.fill x dim values positions)
      | _, _, _ => .ok none
  | _ => .error (.value .twoOutputs)

end TopK

end TensorGraph
