import TensorGraph.Symbolic.Shape

/-!
The shape of a tensor whose elements are kept in order under another shape. The target may leave
one size open as `-1`, which is then inferred from the element count, and may copy a dimension of
the input as `0`.
-/

namespace TensorGraph.SymShape

def targetDim (input : SymShape) (allowZero : Bool) (i : Nat) :
    SymDim → Outcome RuleError SymDim
  | .size n =>
    if n = -1 then .ok .unknown
    else if n < -1 then .error (.value .reshapeEntry)
    else if n = 0 ∧ !allowZero then
      if input.rank?.any (· ≤ i) then .error (.value .zeroWithoutDim) else .ok (input.dim i)
    else .ok (.size n)
  | d => .ok d

/-- The entries of a target shape from position `i` on; the flag tells whether one is open
already. -/
def targetDims (input : SymShape) (allowZero : Bool) :
    Bool → Nat → List SymDim → Outcome RuleError (List SymDim)
  | _, _, [] => .ok []
  | isOpen, i, d :: ds => do
    let opens := d == .size (-1)
    .refuseIf (isOpen && opens) (.value .secondPlaceholder)
    let e ← input.targetDim allowZero i d
    let es ← targetDims input allowZero (isOpen || opens) (i + 1) ds
    return e :: es

def openDim (total known : SymDim) : Outcome RuleError SymDim :=
  match total.value?, known.value? with
  | some total, some known => do
    .refuseIf (known = 0) (.value .placeholderOfZero)
    let r ← remInt total known
    .refuseIf (r ≠ 0) (.value .placeholderRemainder)
    return .size (← divInt total known)
  | _, _ => .ok (if total ≠ .unknown ∧ total = known then .size 1 else .unknown)

/-- The shape of a reshape to `target`. Element counts that are both known have to be equal. -/
def reshape (input target : SymShape) (allowZero : Bool) : Outcome RuleError SymShape :=
  match target with
  | .unknown => .ok .unknown
  | .ranked wanted => do
    let dims ← input.targetDims allowZero false 0 wanted
    match wanted.findIdx? (· == .size (-1)) with
    | some i =>
      .refuseIf (allowZero && wanted.any (· == .size 0)) (.value .zeroAndPlaceholder)
      let d ← openDim input.count (SymDim.product (dims.eraseIdx i))
      return .ranked (dims.set i d)
    | none =>
      match input.count.value?, (SymDim.product dims).value? with
      | some m, some n => .refuseIf (m ≠ n) (.shape .reshapeCount)
      | _, _ => pure ()
      return .ranked dims

end TensorGraph.SymShape
