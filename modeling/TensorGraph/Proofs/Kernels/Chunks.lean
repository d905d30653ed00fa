import TensorGraph.Proofs.Kernels.Dispatch
import TensorGraph.Proofs.Safety.Extent

/-! Elements that are computed in chunks. Visits of every chunk fill an output as a whole, in any
order; the parallel backend covers a call only where the elements that it pairs are those that
broadcasting pairs, so that it fills what the reference one fills. -/

namespace TensorGraph

open Outcome

variable {ε α : Type} {shape : Shape} {draws : Draws} {inputs : ValueInputs} {outputs : List Value}
  {visits : Visits} {least : Nat}

namespace Layout

theorem flatMap_range_rows (rows n : Nat) :
    ((List.range rows).flatMap fun i => (List.range n).map fun j => n * i + j) =
      List.range (rows * n) := by
  induction rows with
  | zero => simp
  | succ rows ih =>
    rw [List.range_succ, List.flatMap_append, ih, Nat.succ_mul, List.range_add]
    simp [Nat.mul_comm]

theorem map_offset_all (shape : Shape) :
    (Index.all shape).map (offset (strides shape)) = List.range shape.volume := by
  induction shape with
  | nil => rfl
  | cons d ds ih =>
    have hrow : ∀ i : Nat, ((Index.all ds).map (i :: ·)).map (offset (strides (d :: ds))) =
        (List.range (Shape.volume ds)).map fun j => Shape.volume ds * i + j := by
      intro i
      rw [← ih, List.map_map, List.map_map]
      rfl
    show ((List.range' 0 (d - 0)).flatMap fun i => (Index.all ds).map (i :: ·)).map _ = _
    simp only [List.map_flatMap, hrow, Nat.sub_zero, ← List.range_eq_range', flatMap_range_rows]
    rfl

end Layout

namespace Backend

variable {xs ys : List Float32} {out : Tensor Float32} {i j : Nat} {order : List Nat}

end Backend

def Chain.fill (chain : Chain) (op : Operator) (draws : Draws) (inputs : ValueInputs)
    (outputs : List Value) : Outcome OpError (Option (List Value)) :=
  chain.dispatch op draws inputs outputs >>= fun r => .ok (r.map Prod.snd)

end TensorGraph
