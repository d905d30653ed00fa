import TensorGraph.Word

/-!
Shapes of row-major arrays: element counts, strides, positions and broadcasting, which reads an
array of fewer or shorter dimensions as one of a larger shape. A shape lists the sizes of the
dimensions, the outermost first; its product is the element count.
-/

namespace TensorGraph

abbrev Shape := List Nat

abbrev Index := List Nat

def Shape.volume : Shape → Nat
  | [] => 1
  | d :: ds => d * volume ds

def Shape.entryBytes : Nat := 8

namespace Layout

variable {ε : Type}

/-- The element count. The running product from the outermost dimension has to fit in 64 bits. -/
def checkedCount (shape : Shape) : Outcome ε Nat :=
  shape.foldlM (fun n d => checkSize (n * d)) 1

def strides : Shape → List Nat
  | [] => []
  | _ :: ds => Shape.volume ds :: strides ds

/-- The strides, where the running product from the innermost dimension has to fit in 64 bits. -/
def checkedStrides (shape : Shape) : Outcome ε (List Nat) := do
  let _ ← shape.foldrM (fun d n => checkSize (n * d)) 1
  return strides shape

def offset : List Nat → Index → Nat
  | s :: ss, i :: is => s * i + offset ss is
  | _, _ => 0

/-- The distance of a position, where each product and sum has to fit in 64 bits. -/
def checkedOffset (strides : List Nat) (index : Index) : Outcome ε Nat :=
  (strides.zip index).foldlM (fun n (s, i) => do checkSize (n + (← checkSize (s * i)))) 0

def inBounds : Index → Shape → Bool
  | [], [] => true
  | i :: is, d :: ds => i < d && inBounds is ds
  | _, _ => false

/-- Whether an array of shape `source` can be read as one of shape `target`: aligned at the
innermost dimension, each size is equal or one. -/
def canBroadcast (source target : Shape) : Bool :=
  source.length ≤ target.length &&
    (source.reverse.zip target.reverse).all fun (s, t) => s == t || s == 1

/-- The strides that read an array of shape `source` as one of shape `target`: zero along
dimensions that are repeated. -/
def broadcastStrides (source target : Shape) : Outcome ε (List Nat) := do
  .demand (canBroadcast source target)
  let inner ← checkedStrides source
  let pad := target.length - source.length
  return List.replicate pad 0 ++
    ((source.zip inner).zip (target.drop pad)).map fun ((size, stride), wanted) =>
      if size = 1 ∧ wanted ≠ 1 then 0 else stride

def broadcastSize (a b : Nat) : Option Nat :=
  if a = b ∨ b = 1 then some a else if a = 1 then some b else none

/-- Puts dimensions of size one in front until there are `rank` of them. -/
def padTo (rank : Nat) (shape : Shape) : Shape := List.replicate (rank - shape.length) 1 ++ shape

def broadcast (a b : Shape) : Option Shape :=
  let rank := max a.length b.length
  ((padTo rank a).zip (padTo rank b)).mapM fun (a, b) => broadcastSize a b

/-- Whether `perm` lists each dimension below `rank` once. -/
def isPermutation (rank : Nat) (perm : List Nat) : Bool :=
  perm.length == rank && (List.range rank).all fun d => perm.count d == 1

end Layout

namespace Index

variable {ε : Type}

/-- The positions in a box of half-open ranges, the last coordinate varying fastest. -/
def box : List (Nat × Nat) → List Index
  | [] => [[]]
  | (lo, hi) :: rs => (List.range' lo (hi - lo)).flatMap fun i => (box rs).map (i :: ·)

def all (shape : Shape) : List Index := box (shape.map (0, ·))

theorem length_box (rs : List (Nat × Nat)) :
    (box rs).length = Shape.volume (rs.map fun r => r.2 - r.1) := by
  induction rs with
  | nil => rfl
  | cons r rs ih =>
    have hc : ∀ l : List Nat,
        (l.flatMap fun i => (box rs).map (i :: ·)).length = l.length * (box rs).length := by
      intro l
      induction l with
      | nil => simp
      | cons _ l ihl => simp [ihl, Nat.add_one_mul, Nat.add_comm]
    simp [box, Shape.volume, hc, ih]

@[simp] theorem length_all (shape : Shape) : (all shape).length = shape.volume := by
  simp [all, length_box, Function.comp_def]

def checkedAll (shape : Shape) : Outcome ε (List Index) := do
  let _ ← Layout.checkedCount shape
  return all shape

/-- A walk over a box: the position that comes next, and how many are left. -/
structure Walk where
  ranges : List (Nat × Nat)
  next : Option Index
  remaining : Nat
  deriving DecidableEq, Repr

/-- A walk that has not started. The count of its positions has to fit in 64 bits. -/
def Walk.ofRanges (ranges : List (Nat × Nat)) : Outcome ε Walk := do
  let n ← Layout.checkedCount (ranges.map fun (lo, hi) => hi - lo)
  return ⟨ranges, if n > 0 then some (ranges.map Prod.fst) else none, n⟩

/-- Steps the last coordinate, and carries into the one before where it reaches its end. -/
def advance : List (Nat × Nat) → Index → Index × Bool
  | (lo, hi) :: rs, i :: is =>
    let (rest, carry) := advance rs is
    if carry then
      if i + 1 < hi then ((i + 1) :: rest, false) else (lo :: rest, true)
    else (i :: rest, false)
  | _, is => (is, true)

def Walk.step (w : Walk) : Option (Index × Walk) :=
  w.next.map fun index =>
    (index, ⟨w.ranges, if w.remaining > 1 then some (advance w.ranges index).1 else none,
      w.remaining - 1⟩)

/-- A call for the next position: the walk that it leaves, and the position if there is one. -/
def Walk.call (w : Walk) : Walk × Option Index :=
  match w.step with
  | some (index, w) => (w, some index)
  | none => (w, none)

def Walk.calls (w : Walk) : Nat → Walk
  | 0 => w
  | n + 1 => (w.calls n).call.1

/-- The positions that are left, at most `fuel` of them. -/
def Walk.takeFrom : Nat → Walk → List Index
  | 0, _ => []
  | fuel + 1, w =>
    match w.step with
    | none => []
    | some (index, w) => index :: takeFrom fuel w

def Walk.toList (w : Walk) : List Index := w.takeFrom w.remaining

end Index

end TensorGraph
