import TensorGraph.Operator.Call

/-!
What runs calls. The reference backend covers every operator; the parallel one covers large
elementwise functions of numbers without broadcasting, whose elements are computed in chunks that
are visited in any order. A chain tries its backends in order.
-/

namespace TensorGraph

/-- What runs calls: it fills the outputs of those that it covers. -/
structure Backend where
  name : String
  run : Call → Filled

/-- The outputs of a call, of which there are as many as before, with what is filled of them. -/
def Call.write (c : Call) (filled : List Value) : List Value :=
  filled.take c.outputs.length ++ c.outputs.drop filled.length

/-- The order in which the chunks of a call are visited, by their positions among so many. -/
abbrev Visits := Call → Nat → List Nat

namespace Backend

/-- Runs every call element by element. -/
def reference : Backend := ⟨"cpu", Call.run⟩

def largeCount : Nat := 65536

def chunkSize : Nat := 4096

def chunkCount (xs : List Float32) : Nat := (xs.length + (chunkSize - 1)) / chunkSize

/-- The elements of the chunk at position `i`. -/
def chunk (xs : List Float32) (i : Nat) : List Float32 := (xs.drop (i * chunkSize)).take chunkSize

/-- The leading elements of the chunk at position `i` replaced by the given ones, as far as either
goes. -/
def putChunk (values : Nat → List Float32) (xs : List Float32) (i : Nat) : List Float32 :=
  xs.take (i * chunkSize) ++ (values i).take (chunk xs i).length ++
    xs.drop (i * chunkSize + min (values i).length (chunk xs i).length)

def fillChunks (order : List Nat) (values : Nat → List Float32) (out : Tensor Float32) :
    Tensor Float32 :=
  out.overwrite (order.foldl (putChunk values) out.data)

def runParallel (visits : Visits) (least : Nat) (c : Call) : Filled :=
  match c.op, c.inputs.find? 0, c.inputs.find? 1, c.outputs with
  | .unary f, some (.float x), _, [.float out] =>
    if x.count < least ∨ !f.supports .float ∨ f.isPredicate then .ok none
    else
      let count := min (chunkCount out.data) (chunkCount x.data)
      Kernel.filled (fillChunks (visits c count) (fun i => (chunk x.data i).map f.onFloat) out)
  | .binary f, some (.float a), some (.float b), [.float out] =>
    if out.count < least ∨ a.shape ≠ out.shape ∨ b.shape ≠ out.shape ∨ f.isComparison ∨
        !f.supports .float then .ok none
    else
      let count := min (min (chunkCount out.data) (chunkCount a.data)) (chunkCount b.data)
      Kernel.filled (fillChunks (visits c count)
        (fun i => List.zipWith f.onFloat (chunk a.data i) (chunk b.data i)) out)
  | _, _, _, _ => .ok none

/-- Covers functions of tensors of at least `least` elements. -/
def parallel (visits : Visits) (least : Nat) : Backend := ⟨"parallel", runParallel visits least⟩

end Backend

abbrev Chain := List Backend

namespace Chain

def reference : Chain := [.reference]

def parallel (visits : Visits) : Chain := [.parallel visits Backend.largeCount, .reference]

/-- The filled outputs from the first of the backends that covers the operator, whose position is
counted from `i`; nothing if none does. -/
def dispatchFrom (op : Operator) (draws : Draws) (inputs : ValueInputs) (outputs : List Value) :
    Nat → Chain → Outcome OpError (Option (Nat × List Value))
  | _, [] => .ok none
  | i, b :: bs => do
    let call ← op.call draws inputs outputs
    match ← b.run call with
    | some filled => return some (i, call.write filled)
    | none => dispatchFrom op draws inputs outputs (i + 1) bs

def dispatch (chain : Chain) (op : Operator) (draws : Draws) (inputs : ValueInputs)
    (outputs : List Value) : Outcome OpError (Option (Nat × List Value)) :=
  dispatchFrom op draws inputs outputs 0 chain

/-- The outputs of an operator for the numbers that it may draw. What no backend covers is
refused. -/
def applyDrawing (chain : Chain) (op : Operator) (draws : Draws) (inputs : ValueInputs) :
    Outcome OpError (List Value) := do
  let types ← op.checkedTypes inputs
  match ← chain.dispatch op draws inputs (← types.mapM Value.zeros) with
  | some (_, filled) => return filled
  | none => .error .unsupportedType

def apply (chain : Chain) (op : Operator) (inputs : ValueInputs) : Outcome OpError (List Value) :=
  chain.applyDrawing op .none inputs

end Chain

end TensorGraph
