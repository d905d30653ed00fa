import TensorGraph.Proofs.Kernels.Outputs
import TensorGraph.Proofs.Related

/-! Kernels that join, normalize and multiply numbers keep the types of their outputs. -/

namespace TensorGraph

open Outcome Tensor Kernel

variable {ε α β : Type} (inputs : ValueInputs) (outputs : List Value)

namespace Reduce

theorem keepsShape_fill (joinable : List α → Prop) [DecidablePred joinable] (join : List α → α)
    (x : Tensor α) (dims : List Nat) (out : Tensor α) :
    KeepsShape (fill joinable join x dims out : Outcome ε (Tensor α)) out :=
  always_bind fun _ _ => always_bind fun _ _ => always_ok rfl

theorem keepsTypes_kernel (op : Reduction) (x : Value) (dims : List Nat) (out : Value) :
    KeepsTypes [out] (kernel op x dims out) := by
  refine keepsTypes_unless ?_
  cases x <;> cases out
  case float.float x out => exact keepsTypes_float (keepsShape_fill _ _ x dims out)
  case int.int x out => exact keepsTypes_int (keepsShape_fill _ _ x dims out)
  all_goals exact keepsTypes_none

theorem prepares (op : Reduce) : Prepares outputs (op.prepare inputs outputs) := by
  refine always_bind fun x _ => prepares_single fun out => always_bind fun axes _ => ?_
  split
  · exact always_ok keepsTypes_copy
  · exact always_ok (keepsTypes_kernel _ _ _ _)
  · exact always_ok (keepsTypes_kernel _ _ _ _)
  · exact always_bind fun _ _ => always_ok (keepsTypes_kernel _ _ _ _)

end Reduce

theorem ArgReduce.prepares (op : ArgReduce) : Prepares outputs (op.prepare inputs outputs) := by
  refine always_bind fun x _ => always_bind fun dim _ => prepares_single fun _ => always_ok ?_
  refine keepsTypes_intOutput fun out => ?_
  cases x <;> exact always_bind fun _ _ => always_ok rfl

theorem TopK.shapes_fill [Element α] (op : TopK) (x : Tensor α) (dim : Nat) (values : Tensor α)
    (positions : Tensor Int64) : Always
      (fun r => r.1.shape = values.shape ∧ r.2.shape = positions.shape)
      (op.fill x dim values positions : Outcome ε (Tensor α × Tensor Int64)) :=
  always_bind fun _ _ => always_bind fun _ _ => always_bind fun _ _ => always_bind fun _ _ =>
    always_bind fun _ _ => always_bind fun _ _ => always_ok ⟨shape_write _ _, shape_write _ _⟩

theorem TopK.prepares (op : TopK) : Prepares outputs (op.prepare inputs outputs) := by
  refine always_bind fun x _ => always_bind fun dim _ => ?_
  split
  · rename_i values positions
    refine always_ok ?_
    cases positions <;> cases x <;> cases values
    case int.float.float =>
      refine always_bind fun r hr => always_ok fun vs hvs => ?_
      obtain ⟨hvalues, hpositions⟩ := op.shapes_fill _ dim _ _ r hr
      cases hvs
      simp [Value.type, Value.Stored.wrap, Value.dtype, Value.shape, hvalues, hpositions]
    case int.int.int =>
      refine always_bind fun r hr => always_ok fun vs hvs => ?_
      obtain ⟨hvalues, hpositions⟩ := op.shapes_fill _ dim _ _ r hr
      cases hvs
      simp [Value.type, Value.Stored.wrap, Value.dtype, Value.shape, hvalues, hpositions]
    all_goals exact keepsTypes_none
  · exact always_error _

theorem CumSum.keepsShape_fill [Element α] [Add α] (op : CumSum) (x out : Tensor α) (dim : Nat) :
    KeepsShape (op.fill x out dim : Outcome ε (Tensor α)) out :=
  always_bind fun _ _ => always_ok (shape_write _ _)

theorem CumSum.prepares (op : CumSum) : Prepares outputs (op.prepare inputs outputs) := by
  refine always_bind fun x _ => always_bind fun axis _ => always_bind fun a _ => ?_
  refine always_bind fun dim _ => prepares_single fun out => always_ok ?_
  cases x <;> cases out
  case float.float => exact keepsTypes_float (op.keepsShape_fill _ _ dim)
  case int.int => exact keepsTypes_int (op.keepsShape_fill _ _ dim)
  all_goals exact keepsTypes_none

theorem BatchNormalization.prepares (op : BatchNormalization) :
    Prepares outputs (op.prepare inputs outputs) := by
  refine always_bind fun x _ => always_bind fun _ _ => always_bind fun _ _ => ?_
  refine always_bind fun _ _ => always_bind fun _ _ => prepares_single fun out => always_ok ?_
  refine keepsTypes_bind fun _ _ => keepsTypes_bind fun _ _ => keepsTypes_bind fun _ _ => ?_
  refine keepsTypes_bind fun _ _ => keepsTypes_floatOnly fun _ _ => ?_
  exact always_bind fun _ _ => always_bind fun _ _ => always_bind fun _ _ => always_ok rfl

theorem InstanceNormalization.prepares (op : InstanceNormalization) :
    Prepares outputs (op.prepare inputs outputs) := by
  refine always_bind fun x _ => always_bind fun _ _ => always_bind fun _ _ => ?_
  refine prepares_single fun out => always_ok ?_
  refine keepsTypes_bind fun _ _ => keepsTypes_bind fun _ _ => keepsTypes_floatOnly fun _ _ => ?_
  refine always_bind fun _ _ => always_bind fun _ _ => always_bind fun _ _ => ?_
  refine always_bind fun _ _ => ?_
  split_ifs
  · exact always_ok rfl
  · exact always_bind fun _ _ => always_ok rfl

theorem Lrn.prepares (op : Lrn) : Prepares outputs (op.prepare inputs outputs) :=
  always_bind fun _ _ => prepares_single fun _ => always_ok (keepsTypes_floatOnly fun _ _ =>
    always_bind fun _ _ => always_bind fun _ _ => always_ok rfl)

theorem LayerNormalization.keepsShape_fill (op : LayerNormalization) (dim : Nat)
    (scale : Tensor Float32) (bias : Option (Tensor Float32)) (x out : Tensor Float32) :
    KeepsShape (op.fill dim scale bias x out) out := by
  refine always_bind fun _ _ => always_bind fun _ _ => ?_
  cases bias <;> refine always_bind fun _ _ => always_bind fun _ _ => ?_ <;> split_ifs <;>
    exact always_ok rfl

theorem LayerNormalization.prepares (op : LayerNormalization) :
    Prepares outputs (op.prepare inputs outputs) :=
  always_bind fun _ _ => always_bind fun _ _ => always_bind fun _ _ => prepares_single fun _ =>
    always_ok (keepsTypes_bind fun _ _ => keepsTypes_bind fun _ _ => keepsTypes_floatOnly fun _ _ =>
      op.keepsShape_fill _ _ _ _ _)

theorem Softmax.prepares (op : Softmax) : Prepares outputs (op.prepare inputs outputs) :=
  always_bind fun _ _ => always_bind fun _ _ => prepares_single fun _ => always_ok
    (keepsTypes_floatOnly fun _ _ => always_bind fun _ _ => always_bind fun _ _ =>
      always_bind fun _ _ => always_bind fun _ _ => always_ok (shape_write _ _))

theorem MatMul.keepsShape_fill [Element α] (a b out : Tensor α) : KeepsShape (fill a b out) out :=
  always_bind fun _ _ => always_bind fun _ _ => always_bind fun _ _ => always_bind fun _ _ =>
    always_bind fun _ _ => always_bind fun _ _ => always_bind fun _ _ =>
      keepsShape_writeBlocks out _

theorem MatMul.prepares : Prepares outputs (MatMul.prepare inputs outputs) :=
  always_bind fun _ _ => always_bind fun _ _ => prepares_single fun _ => always_ok
    (keepsTypes_sameType fun _ _ => always_bind fun _ _ => keepsShape_fill _ _ _)

theorem Gemm.keepsShape_fill (op : Gemm) (a b : Tensor Float32) (c : Option (Tensor Float32))
    (out : Tensor Float32) : KeepsShape (op.fill a b c out) out := by
  refine always_bind fun a _ => always_bind fun b _ => always_bind fun y hy => ?_
  have hshape := MatMul.keepsShape_fill a b out y hy
  have hscaled : (if op.alpha == 1 then y else y.map (· * op.alpha)).shape = out.shape := by
    split_ifs <;> exact hshape
  cases c with
  | none => exact always_ok hscaled
  | some c =>
    by_cases hbeta : (op.beta == 0) = true
    · simp only [hbeta, if_true]
      exact always_ok hscaled
    · simp only [hbeta]
      exact always_bind fun _ _ => always_ok hscaled

theorem Gemm.prepares (op : Gemm) : Prepares outputs (op.prepare inputs outputs) :=
  always_bind fun _ _ => always_bind fun _ _ => prepares_single fun _ => always_ok
    (keepsTypes_bind fun _ _ => keepsTypes_floatOnly fun _ _ => always_bind fun _ _ =>
      op.keepsShape_fill _ _ _ _)

theorem Conv.prepares (op : Conv) : Prepares outputs (op.prepare inputs outputs) := by
  refine always_bind fun x _ => always_bind fun _ _ => prepares_single fun out => ?_
  refine always_bind fun g _ => always_ok (keepsTypes_bind fun _ _ => ?_)
  refine keepsTypes_floatOnly fun _ out => always_bind fun _ _ => always_bind fun _ _ => ?_
  exact always_bind fun _ _ => always_bind fun _ _ => keepsShape_mapIndexedM _ out

theorem ConvTranspose.shape_addAt (t : Tensor Float32) (term : Index × Float32) :
    (addAt t term).shape = t.shape := by
  unfold addAt
  split
  · exact shape_write _ _
  · rfl

theorem ConvTranspose.shape_foldl_addAt (terms : List (Index × Float32)) (t : Tensor Float32) :
    (terms.foldl addAt t).shape = t.shape := by
  induction terms generalizing t with
  | nil => rfl
  | cons term terms ih => exact (ih _).trans (shape_addAt t term)

theorem ConvTranspose.prepares (op : ConvTranspose) :
    Prepares outputs (op.prepare inputs outputs) := by
  refine always_bind fun x _ => always_bind fun _ _ => prepares_single fun out => ?_
  refine always_bind fun g _ => always_ok (keepsTypes_bind fun _ _ => ?_)
  refine keepsTypes_floatOnly fun _ out => always_bind fun _ _ => always_bind fun _ _ => ?_
  refine always_bind fun _ _ => always_bind fun _ _ => always_bind fun y hy => ?_
  refine always_bind fun _ _ => always_bind fun terms _ => always_ok ?_
  exact (shape_foldl_addAt _ y).trans (keepsShape_mapIndexedM _ out y hy)

theorem Pool.prepares (op : Pool) : Prepares outputs (op.prepare inputs outputs) :=
  always_bind fun _ _ => prepares_single fun _ => always_bind fun _ _ => always_ok
    (keepsTypes_floatOnly fun _ out => keepsShape_mapIndexedM _ out)

theorem GlobalPool.prepares (op : GlobalPool) : Prepares outputs (op.prepare inputs outputs) :=
  always_bind fun _ _ => always_bind fun _ _ => prepares_single fun _ => always_ok
    (keepsTypes_floatOnly fun _ out => keepsShape_mapIndexedM _ out)

theorem Resize.keepsShape_fill (op : Resize) (scales : List Float32) (x out : Tensor Float32) :
    KeepsShape (op.fill scales x out) out := by
  refine always_bind fun _ _ => ?_
  split_ifs
  · exact always_ok rfl
  · refine always_bind fun _ _ => always_bind fun _ _ => always_bind fun _ _ => ?_
    refine always_bind fun _ _ => always_bind fun _ _ => always_bind fun _ _ => ?_
    refine always_bind fun _ _ => always_bind fun _ _ => always_bind fun _ _ => ?_
    exact always_ok rfl

theorem Resize.prepares (op : Resize) : Prepares outputs (op.prepare inputs outputs) := by
  refine always_bind fun x _ => prepares_single fun out => ?_
  have hkernel : ∀ given, KeepsTypes [out] (floatOnly x out (op.fill (scalesFor x out given))) :=
    fun given => keepsTypes_floatOnly fun x out => op.keepsShape_fill _ x out
  cases Inputs.find? inputs 2 with
  | none => exact always_ok (hkernel none)
  | some v => exact always_bind fun given _ => always_ok (hkernel given)

theorem Kernel.outputs_eq_floats {outputs : List Value} {ts : List (Tensor Float32)}
    (h : outputs.mapM (typed Float32) = .ok ts) : outputs = ts.map .float := by
  replace h := Outcome.mapM_eq_ok.mp h
  induction h with
  | nil => rfl
  | @cons v _ _ _ hv _ ih =>
    cases v <;> cases hv
    exact congrArg _ ih

theorem Kernel.outputs_eq_ints {outputs : List Value} {ts : List (Tensor Int64)}
    (h : outputs.mapM (typed Int64) = .ok ts) : outputs = ts.map .int := by
  replace h := Outcome.mapM_eq_ok.mp h
  induction h with
  | nil => rfl
  | @cons v _ _ _ hv _ ih =>
    cases v <;> cases hv
    exact congrArg _ ih

namespace Split

theorem keepsShapes_fillPieces (x : Tensor α) (outer total start : Nat)
    (outs : List (Nat × Tensor α)) :
    Always (fun ys => ys.map Tensor.shape = outs.map fun o => o.2.shape)
      (fillPieces x outer total start outs : Outcome ε (List (Tensor α))) := by
  induction outs generalizing start with
  | nil => exact always_ok rfl
  | cons o outs ih =>
    refine always_bind fun y hy => always_bind fun ys hys => always_ok ?_
    have hhead := keepsShape_writeBlocks o.2 _ y hy
    rw [List.map_cons, List.map_cons, hhead, ih _ ys hys]

theorem keepsShapes_fill (x : Tensor α) (dim : Nat) (outs : List (Tensor α)) :
    Always (fun ys => ys.map Tensor.shape = outs.map Tensor.shape)
      (fill x dim outs : Outcome ε (List (Tensor α))) := by
  refine always_bind fun r _ => ?_
  obtain ⟨outer, inner⟩ := r
  dsimp only
  split_ifs
  · exact always_ok rfl
  · refine always_bind fun lengths hlengths ys hys => ?_
    have hlen := (Outcome.mapM_eq_ok.mp hlengths).length_eq
    rw [keepsShapes_fillPieces x _ _ _ _ ys hys]
    calc (lengths.zip outs).map (fun o => o.2.shape)
        = ((lengths.zip outs).map Prod.snd).map Tensor.shape := by rw [List.map_map]; rfl
      _ = outs.map Tensor.shape := by rw [List.map_snd_zip (Nat.le_of_eq hlen)]

theorem prepares (op : Split) : Prepares outputs (op.prepare inputs outputs) := by
  refine always_bind fun x _ => always_bind fun dim _ => always_ok ?_
  cases x with
  | float x =>
    refine always_bind fun ts hts => always_bind fun ys hys => always_ok fun vs hvs => ?_
    cases hvs
    have hshapes := keepsShapes_fill x dim ts ys hys
    rw [outputs_eq_floats hts]
    simpa [Function.comp_def, Value.type, Value.dtype, Value.shape] using
      congrArg (List.map fun s => (⟨.float, s⟩ : ValueType)) hshapes
  | int x =>
    refine always_bind fun ts hts => always_bind fun ys hys => always_ok fun vs hvs => ?_
    cases hvs
    have hshapes := keepsShapes_fill x dim ts ys hys
    rw [outputs_eq_ints hts]
    simpa [Function.comp_def, Value.type, Value.dtype, Value.shape] using
      congrArg (List.map fun s => (⟨.int, s⟩ : ValueType)) hshapes

end Split

end TensorGraph
