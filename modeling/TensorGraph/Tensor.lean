import TensorGraph.Layout

/-!
Arrays of any rank with their elements in row-major order. The element count is the product of the
shape by construction; functions that may be asked for a wrong count refuse it or fault.
-/

namespace TensorGraph

/-- An array: its shape, and its elements in row-major order. -/
structure Tensor (α : Type) where
  shape : Shape
  data : List α
  length_data : data.length = shape.volume
  deriving DecidableEq, Repr

/-- Why a shape does not go with elements. -/
inductive LengthError where
  | storage (expected actual : Nat)
  | reshape
  deriving DecidableEq, Repr

def LengthError.message : LengthError → String
  | storage expected actual =>
    s!"data length mismatch. expected {expected} elements, got {actual}"
  | reshape => "new shape must have same number of elements as current shape"

namespace Tensor

variable {ε α β : Type}

theorem ext_iff {s t : Tensor α} : s = t ↔ s.shape = t.shape ∧ s.data = t.data := by
  cases s; cases t; simp

/-- A tensor of the given elements, which are refused if they do not fill the shape. -/
def ofData? (shape : Shape) (data : List α) : Outcome LengthError (Tensor α) := do
  let expected ← Layout.checkedCount shape
  if h : data.length = shape.volume then return ⟨shape, data, h⟩
  else .error (.storage expected data.length)

def ofData (shape : Shape) (data : List α) : Outcome ε (Tensor α) := do
  let _ ← Layout.checkedCount shape
  if h : data.length = shape.volume then return ⟨shape, data, h⟩ else .fault

def ofList (data : List α) : Tensor α := ⟨[data.length], data, by simp [Shape.volume]⟩

def scalar (a : α) : Tensor α := ⟨[], [a], rfl⟩

/-- A tensor with one value everywhere. There has to be room for its sizes and its elements. -/
def full (bytes : Nat) (shape : Shape) (a : α) : Outcome ε (Tensor α) := do
  checkRoom shape.length Shape.entryBytes
  let n ← Layout.checkedCount shape
  checkRoom n bytes
  return ⟨shape, List.replicate shape.volume a, by simp⟩

def rank (t : Tensor α) : Nat := t.shape.length

def count (t : Tensor α) : Nat := t.data.length

def size (t : Tensor α) (dim : Nat) : Outcome ε Nat := .ofOption t.shape[dim]?

def item? (t : Tensor α) : Option α :=
  match t.data with
  | [a] => some a
  | _ => none

/-- The same elements under another shape of the same element count. -/
def reshape (t : Tensor α) (shape : Shape) : Outcome LengthError (Tensor α) := do
  let _ ← Layout.checkedCount shape
  if h : t.data.length = shape.volume then return ⟨shape, t.data, h⟩ else .error .reshape

def offset? (t : Tensor α) (index : Index) : Option Nat :=
  if Layout.inBounds index t.shape then some (Layout.offset (Layout.strides t.shape) index)
  else none

def get? (t : Tensor α) (index : Index) : Option α := t.offset? index >>= fun i => t.data[i]?

def set? (t : Tensor α) (index : Index) (a : α) : Option (Tensor α) :=
  (t.offset? index).map fun i => ⟨t.shape, t.data.set i a, by simp [t.length_data]⟩

def map (f : α → β) (t : Tensor α) : Tensor β := ⟨t.shape, t.data.map f, by simp [t.length_data]⟩

/-- Every element replaced by a function of its position and itself. -/
def mapIndexed (f : Index → α → β) (t : Tensor α) : Tensor β :=
  ⟨t.shape, List.zipWith f (Index.all t.shape) t.data, by simp [t.length_data]⟩

/-- Every element replaced, in order, by a computation on its position and itself. -/
def mapIndexedM (f : Index → α → Outcome ε β) (t : Tensor α) : Outcome ε (Tensor β) := do
  ofData t.shape (← ((Index.all t.shape).zip t.data).mapM fun (index, a) => f index a)

/-- The leading elements replaced by the given ones, as far as either goes. -/
def overwrite (t : Tensor α) (values : List α) : Tensor α :=
  ⟨t.shape, (values.take t.data.length ++ t.data.drop values.length), by
    simp [t.length_data]; omega⟩

/-- The elements from `start` on replaced by the given ones, which have to fit. -/
def writeAt (t : Tensor α) (start : Nat) (values : List α) : Outcome ε (Tensor α) :=
  if h : start + values.length ≤ t.data.length then
    .ok ⟨t.shape, t.data.take start ++ values ++ t.data.drop (start + values.length), by
      have := t.length_data
      simp
      omega⟩
  else .fault

/-- The `length` stored elements from `start` on, which have to exist. -/
def block (t : Tensor α) (start length : Nat) : Outcome ε (List α) :=
  if start + length ≤ t.data.length then .ok ((t.data.drop start).take length) else .fault

def broadcastElements (t : Tensor α) (shape : Shape) : Outcome ε (List α) := do
  let strides ← Layout.broadcastStrides t.shape shape
  let positions ← Index.checkedAll shape
  positions.mapM fun index => .ofOption t.data[Layout.offset strides index]?

def broadcastTo (t : Tensor α) (shape : Shape) : Outcome ε (Tensor α) := do
  ofData shape (← t.broadcastElements shape)

/-- A copy whose dimension `k` is dimension `perm[k]` of the tensor; `perm` has to list each
dimension once. -/
def permuted (t : Tensor α) (perm : List Nat) : Outcome ε (Tensor α) := do
  .demand (Layout.isPermutation t.rank perm)
  let strides ← Layout.checkedStrides t.shape
  let shape := perm.map fun d => t.shape.getD d 0
  let steps := perm.map fun d => strides.getD d 0
  let positions ← Index.checkedAll shape
  ofData shape (← positions.mapM fun index => .ofOption t.data[Layout.offset steps index]?)

/-- A shape with size one along the given dimensions. -/
def cutShape (shape : Shape) (dims : List Nat) : Shape :=
  shape.zipIdx.map fun (size, k) => if dims.contains k then 1 else size

/-- The positions of the lane that belongs to `index`. -/
def laneBox (shape : Shape) (dims : List Nat) (index : Index) : List (Nat × Nat) :=
  (shape.zip index).zipIdx.map fun ((size, i), k) =>
    if dims.contains k then (0, size) else (i, i + 1)

/-- The elements of the lanes along the given dimensions, in row-major order of the positions that
they belong to. -/
def lanes (t : Tensor α) (dims : List Nat) : Outcome ε (List (List α)) := do
  let positions ← Index.checkedAll (cutShape t.shape dims)
  return positions.map fun index => (Index.box (laneBox t.shape dims index)).filterMap t.get?

def laneStarts (t : Tensor α) (dim : Nat) : Outcome ε (List Index) :=
  Index.checkedAll (t.shape.set dim 1)

/-- The tensor with elements replaced at the given positions; those outside are passed over. -/
def write (t : Tensor α) (entries : List (Index × α)) : Tensor α :=
  entries.foldl (fun t (index, a) => (t.set? index a).getD t) t

end Tensor

end TensorGraph
