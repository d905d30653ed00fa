import TensorGraph.Symbolic.Shape

/-!
Shapes of tensors that are extended at their ends or repeated along their dimensions.
-/

namespace TensorGraph

/-- A dimension with elements added at both ends, or taken away where a pad is negative. -/
def SymDim.pad (d : SymDim) (start stop : Option Int64) : Outcome RuleError SymDim :=
  match start, stop with
  | some start, some stop => do
    let total ← .orRefuse (.value .largePadding) (addInt? start stop)
    let padded := d + .size total
    .refuseIf (padded.value?.any (· < 0)) (.value .negativePadding)
    return padded
  | _, _ => .ok .unknown

namespace SymShape

/-- The shape of a padded tensor; the pads at the starts of the dimensions come first. -/
def pad (s : SymShape) (pads : List (Option Int64)) : Outcome RuleError SymShape :=
  match s with
  | .unknown => do
    .refuseIf (pads.length % 2 ≠ 0) (.value .oddPads)
    return .ofRank (pads.length / 2)
  | .ranked ds => do
    .refuseIf (pads.length ≠ ds.length * 2) (.value .padsCount)
    let ends := (pads.take ds.length).zip (pads.drop ds.length)
    return .ranked (← (ds.zip ends).mapM fun (d, start, stop) => d.pad start stop)

/-- The shape of a tensor that is repeated along each dimension. -/
def tile (s : SymShape) (repeats : List SymDim) : Outcome RuleError SymShape := do
  .refuseIf (repeats.any fun r => r.value?.any (· < 0)) (.value .negativeRepeats)
  match s with
  | .unknown => return .ofRank repeats.length
  | .ranked ds =>
    .refuseIf (repeats.length ≠ ds.length) (.value .repeatsCount)
    return .ranked (List.zipWith (· * ·) ds repeats)

end SymShape

end TensorGraph
