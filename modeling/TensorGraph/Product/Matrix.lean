import TensorGraph.Indexing.Position

/-!
Products of matrices in the last two dimensions, where the dimensions before are read together by
broadcasting. Each element is a sum from the left; sums of integers fault on overflow. A vector
counts as a row on the left and as a column on the right, and the dimension that is added for that
is left out of the result.
-/

namespace TensorGraph

namespace MatMul

variable {α : Type}

/-- The batch dimensions of a left factor, its rows unless it is a vector, and its columns. -/
def splitLeft (ds : List SymDim) : List SymDim × List SymDim × SymDim :=
  match ds with
  | [k] => ([], [], k)
  | ds => (ds.take (ds.length - 2), (ds.drop (ds.length - 2)).take 1, ds.getLastD .unknown)

/-- The batch dimensions of a right factor, its columns unless it is a vector, and its rows. -/
def splitRight (ds : List SymDim) : List SymDim × List SymDim × SymDim :=
  match ds with
  | [k] => ([], [], k)
  | ds => (ds.take (ds.length - 2), ds.drop (ds.length - 1), ds.getD (ds.length - 2) .unknown)

def infer (inputs : SymInputs) : Outcome RuleError (List SymTensor) := do
  let a ← inputs.demand 0
  let b ← inputs.demand 1
  .refuseIf (a.dtype ≠ b.dtype) (.type .inputTypes)
  match a.shape, b.shape with
  | .ranked left, .ranked right =>
    .refuseIf (left.isEmpty ∨ right.isEmpty) (.rank .scalarFactor)
    let (batchA, rows, inner) := splitLeft left
    let (batchB, columns, facing) := splitRight right
    let _ ← inner.refine facing
    let batch ← SymShape.broadcast [.ranked batchA, .ranked batchB]
    return [.ofShape a.dtype (.ranked (batch.dims ++ rows ++ columns))]
  | _, _ => return [.unranked a.dtype]

/-- The batch dimensions, rows and columns of a factor, which has to have a dimension. -/
def factor (shape : Shape) (vector : Nat → Nat × Nat) : Outcome OpError (Shape × Nat × Nat) :=
  match shape with
  | [] => .error (.rank .scalarFactor)
  | [k] => .ok ([], vector k)
  | shape =>
    .ok (shape.take (shape.length - 2), shape.getD (shape.length - 2) 0,
      shape.getD (shape.length - 1) 0)

/-- The sum of the products of two lists, from zero on. -/
def dot {ε : Type} [Element α] (xs ys : List α) : Outcome ε α :=
  (xs.zip ys).foldlM (fun acc (x, y) => do Element.add acc (← Element.mul x y)) Element.zero

/-- The elements of the product of an `m` by `k` and a `k` by `n` matrix. -/
def multiply {ε : Type} [Element α] (m k n : Nat) (a b : List α) : Outcome ε (List α) := do
  let columns := (List.range n).map fun j => (List.range k).filterMap fun i => b[i * n + j]?
  let rows ← (List.range m).mapM fun i =>
    columns.mapM fun column => dot ((a.drop (i * k)).take k) column
  return rows.flatten

def product [Element α] (a b : Tensor α) (m k n i j : Nat) : Outcome OpError (List α) := do
  let x ← a.block (i * m * k) (m * k)
  let y ← b.block (j * k * n) (k * n)
  let _ ← checkSize (m * n)
  multiply m k n x y

def fill [Element α] (a b out : Tensor α) : Outcome OpError (Tensor α) := do
  let left ← factor a.shape fun k => (1, k)
  let right ← factor b.shape fun k => (k, 1)
  let (batchA, m, k) := left
  let (batchB, depth, n) := right
  .refuseIf (depth ≠ k) (.shape .innerSizes)
  let batch ← .orRefuse (.shape .batchSizes) (Layout.broadcast batchA batchB)
  let stridesA ← Layout.broadcastStrides batchA batch
  let stridesB ← Layout.broadcastStrides batchB batch
  let positions ← Index.checkedAll batch
  out.writeBlocks (positions.map fun index =>
    product a b m k n (Layout.offset stridesA index) (Layout.offset stridesB index))

def prepare (inputs : ValueInputs) (outputs : List Value) : Outcome OpError Kernel := do
  let a ← inputs.demand 0
  let b ← inputs.demand 1
  let out ← Kernel.single outputs
  return Kernel.sameType a out fun a out => do fill a (← Kernel.typed _ b) out

end MatMul

/-- `alpha` times the product of two matrices, which may be transposed first, plus `beta` times a
third matrix. -/
structure Gemm where
  alpha : Float32
  beta : Float32
  transA : Bool
  transB : Bool
  deriving DecidableEq, Repr

namespace Gemm

def matrixDims (t : SymTensor) (transposed : Bool) : Outcome RuleError (SymDim × SymDim) := do
  let s ← t.shape.declareRank 2
  return if transposed then (s.dim 1, s.dim 0) else (s.dim 0, s.dim 1)

def infer (op : Gemm) (inputs : SymInputs) : Outcome RuleError (List SymTensor) := do
  let a ← inputs.demand 0
  let b ← inputs.demand 1
  .refuseIf (inputs.given.any (·.dtype ≠ .float)) (.type .factors)
  let (m, k) ← matrixDims a op.transA
  let (depth, n) ← matrixDims b op.transB
  let _ ← k.refine depth
  let product := SymShape.ranked [m, n]
  match inputs.find? 2 with
  | none => return [.ofShape .float product]
  | some c =>
    .refuseIf (c.rank?.any (· > 2)) (.rank .addendRank)
    let common ← SymShape.broadcast [c.shape, product]
    return [.ofShape .float (← product.refine common)]

def orient {ε : Type} (t : Tensor Float32) (transposed : Bool) : Outcome ε (Tensor Float32) :=
  if transposed then t.permuted [1, 0] else .ok t

def fill (op : Gemm) (a b : Tensor Float32) (c : Option (Tensor Float32)) (out : Tensor Float32) :
    Outcome OpError (Tensor Float32) := do
  let a ← orient a op.transA
  let b ← orient b op.transB
  let out ← MatMul.fill a b out
  let scaled := if op.alpha == 1 then out else out.map (· * op.alpha)
  match c with
  | none => return scaled
  | some c =>
    if op.beta == 0 then return scaled
    else
      let addends ← c.broadcastElements scaled.shape
      return scaled.overwrite
        (List.zipWith (fun y c => y + op.beta * c) scaled.data addends)

def prepare (op : Gemm) (inputs : ValueInputs) (outputs : List Value) : Outcome OpError Kernel := do
  let a ← inputs.demand 0
  let b ← inputs.demand 1
  let out ← Kernel.single outputs
  return fun _ => do
    let c ← Kernel.typed? Float32 (inputs.find? 2)
    Kernel.floatOnly a out (fun a out => do op.fill a (← Kernel.typed Float32 b) c out) ()

end Gemm

end TensorGraph
