import TensorGraph.Proofs.Kernels.Operators
import TensorGraph.Proofs.Safety.Blocks
import TensorGraph.Proofs.Safety.Elementwise
import TensorGraph.Proofs.Safety.Images
import TensorGraph.Proofs.Safety.Indexing
import TensorGraph.Proofs.Safety.Joining
import TensorGraph.Proofs.Safety.Lanes
import TensorGraph.Proofs.Safety.Making
import TensorGraph.Proofs.Safety.Padding
import TensorGraph.Proofs.Safety.Products
import TensorGraph.Proofs.Safety.Ranges
import TensorGraph.Proofs.Safety.Resizing
import TensorGraph.Proofs.Safety.Selection

/-! Calls of all operators on the reference backend. Where shapes are accepted and everything fits
memory, a kernel faults only by arithmetic on attributes, sizes and integer elements that leaves
its words, or by sorting what has no total order. -/

namespace TensorGraph

open Outcome Kernel

namespace Operator

variable {op : Operator} {draws : Draws} {inputs : ValueInputs} {outputs : List Value}
  {types : List ValueType}

/-- Whether attributes, sizes and elements are such that the plain arithmetic of a kernel stays
inside its words, and its lanes can be sorted. -/
def Tame : Operator → ValueInputs → Prop
  | conv op, inputs => ∀ weight, Inputs.find? inputs 1 = some weight →
    Window.Tame op.padding op.strides op.dilations (weight.shape.drop 2)
  | convTranspose op, inputs => ∀ weight, Inputs.find? inputs 1 = some weight →
    Window.Tame op.padding op.strides op.dilations (weight.shape.drop 2)
  | globalPool _, inputs => ∀ x, Inputs.find? inputs 0 = some x →
    Shape.volume (x.shape.drop 2) < counterLimit
  | matMul, inputs => MatMul.TameIn inputs
  | pad _, inputs => Pad.TameIn inputs
  | pool op, _ => op.Tame
  | reduce op, inputs => op.TameIn inputs
  | resize op, inputs => ∀ x, Inputs.find? inputs 0 = some x → op.TameFor x.shape
  | scatterElements op, inputs => op.combination.TameIn inputs
  | scatterND op, inputs => op.combination.TameIn inputs
  | spaceToDepth op, _ => op.block < intLimit
  | topK op, inputs => op.TameIn inputs
  | _, _ => True

theorem safe (op : Operator) (h : op.Accepts inputs outputs) (htame : op.Tame inputs) :
    Safe (op.prepare draws inputs outputs) := by
  cases op with
  | argReduce op => exact op.safe h
  | batchNormalization op => exact op.safe h
  | binary f => exact f.safe h
  | cast | castLike => exact Cast.safe
  | clip => exact Clip.safe
  | compress op => exact op.safe h
  | concat op => exact op.safe h
  | constantOfShape op => exact op.safe
  | conv op => exact op.safe h htame
  | convTranspose op => exact op.safe h htame
  | cumSum op => exact op.safe h
  | depthToSpace op => exact op.safe h
  | expand => exact Expand.safe h
  | eyeLike op => exact op.safe h
  | flatten | identity | reshape | squeeze | unsqueeze => exact Reshaping.safe
  | gather op => exact op.safe h
  | gatherElements op => exact op.safe h
  | gatherND op => exact op.safe h
  | gemm op => exact op.safe h
  | globalPool op => exact op.safe h htame
  | instanceNormalization op => exact op.safe h
  | layerNormalization op => exact op.safe h
  | lrn op => exact op.safe h
  | matMul => exact MatMul.safe h htame
  | nonZero => exact NonZero.safe h
  | oneHot op => exact op.safe h
  | pad op => exact op.safe h htame
  | pool op => exact op.safe h htame
  | random op => exact op.safe draws
  | range => exact Range.safe h
  | reduce op => exact op.safe h htame
  | resize op => exact op.safe h htame
  | scatterElements op => exact op.safe h htame
  | scatterND op => exact op.safe h htame
  | shapeOf op => exact op.safe
  | sizeOf => exact SizeOf.safe
  | slice => exact Slice.safe h
  | softmax op => exact op.safe h
  | spaceToDepth op => exact op.safe h htame
  | split op => exact op.safe h
  | tile => exact Tile.safe h
  | topK op => exact op.safe h htame
  | transpose op => exact op.safe h
  | trilu op => exact op.safe h
  | unary f => exact f.safe
  | variadic f => exact f.safe h
  | select => exact Where.safe h

/-- A call of an operator whose shapes are accepted, on zeros of the types that are inferred for its
outputs, ends with the filled outputs or an error. -/
theorem noFault_dispatch (htypes : op.checkedTypes inputs = .ok types)
    (hzeros : (types.mapM Value.zeros : Outcome OpError (List Value)) = .ok outputs)
    (hroom : Value.FitTogether (Inputs.given inputs ++ outputs)) (htame : op.Tame inputs) :
    (Chain.reference.dispatch op draws inputs outputs).NoFault := by
  have haccepts : op.Accepts inputs outputs := ⟨Value.types_of_zeros hzeros ▸ htypes, hroom⟩
  have hsafe : (op.prepare draws inputs outputs >>= fun k => k ()).NoFault := op.safe haccepts htame
  rw [Chain.dispatch_reference, ← bind_assoc]
  exact noFault_bind hsafe fun _ _ => noFault_ok _

def factors (a b : Int64) : ValueInputs :=
  [some (.int ⟨[1], [a], rfl⟩), some (.int ⟨[1], [b], rfl⟩)]

theorem noFault_dispatch_factors :
    (Chain.reference.dispatch matMul .none (factors 3 5) [.int ⟨[], [0], rfl⟩]).NoFault := by
  have htypes : matMul.checkedTypes (factors 3 5) = .ok [⟨.int, []⟩] := by decide
  have htame : MatMul.TameIn (factors 3 5) := by decide
  exact noFault_dispatch htypes (by decide) (by decide) htame

/-- Products of single integers are taken modulo the word, but sums of products are not. -/
theorem fault_dispatch_factors :
    matMul.checkedTypes (factors 9223372036854775807 2) = .ok [⟨.int, []⟩] ∧
      ([⟨.int, []⟩].mapM Value.zeros : Outcome OpError _) = .ok [.int ⟨[], [0], rfl⟩] ∧
        Value.FitTogether
            (Inputs.given (factors 9223372036854775807 2) ++ [.int ⟨[], [0], rfl⟩]) ∧
          Chain.reference.dispatch matMul .none (factors 9223372036854775807 2)
            [.int ⟨[], [0], rfl⟩] = .fault := by
  decide

end Operator

end TensorGraph
