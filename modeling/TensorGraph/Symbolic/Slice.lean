import TensorGraph.Symbolic.Shape

/-!
Ranges of positions `start, start + step, …` along one dimension. Bounds count from the end where
they are negative, and are then held inside the dimension.
-/

namespace TensorGraph

/-- The positions `start + i * step` for `i < len`. -/
structure SliceRange where
  start : Int64
  step : Int64
  len : Nat
  deriving DecidableEq, Repr

namespace SliceRange

variable {ε : Type}

def full (size : Nat) : SliceRange := ⟨0, 1, size⟩

def fromEnd (dim bound : Int64) : Int64 := if bound < 0 then addClamped bound dim else bound

/-- A bound held inside the dimension: the end is outside for a forward step, and the position
before the first for a backward step. -/
def hold (dim step bound : Int64) : Outcome ε Int64 := do
  if step > 0 then clampInt bound 0 dim
  else clampInt bound (-1) (← checkInt (dim.toInt - 1))

def stepCount (span step : Int64) : Outcome ε Int64 := do
  if (span > 0 ∧ step > 0) ∨ (span < 0 ∧ step < 0) then
    let span ← absInt span
    let step ← absInt step
    let sum ← checkInt (span.toInt + step.toInt)
    let sum ← checkInt (sum.toInt - 1)
    divInt sum step
  else return 0

def resolve (dim start stop step : Int64) : Outcome RuleError SliceRange := do
  .refuseIf (step = 0) (.value .zeroStep)
  let first ← hold dim step (fromEnd dim start)
  let last ← hold dim step (fromEnd dim stop)
  let span ← checkInt (last.toInt - first.toInt)
  let len ← stepCount span step
  return ⟨first, step, sizeOfInt len⟩

def position (r : SliceRange) (i : Nat) : Outcome ε Nat := do
  let distance ← checkInt ((intOfSize i).toInt * r.step.toInt)
  return sizeOfInt (← checkInt (r.start.toInt + distance.toInt))

end SliceRange

/-- The size of a sliced dimension. A slice of all positions keeps an unknown size. -/
def SymDim.slice (d : SymDim) (start stop step : Option Int64) : Outcome RuleError SymDim := do
  .refuseIf (step = some 0) (.value .zeroStep)
  match d.value?, start, stop, step with
  | some n, some start, some stop, some step =>
    return .ofSize (← SliceRange.resolve n start stop step).len
  | _, some start, some stop, some step =>
    return if start = 0 ∧ step = 1 ∧ stop = Int64.maxValue then d else .unknown
  | _, _, _, _ => return .unknown

end TensorGraph
