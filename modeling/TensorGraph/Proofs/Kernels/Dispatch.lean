import TensorGraph.Backend
import TensorGraph.Proofs.Kernels.Numeric

/-! Runs of operators keep the types of their outputs, whatever backends run them. -/

namespace TensorGraph

open Outcome Kernel

variable (draws : Draws) (inputs : ValueInputs) (outputs : List Value)

theorem Operator.prepares (op : Operator) : Prepares outputs (op.prepare draws inputs outputs) := by
  cases op with
  | argReduce op => exact op.prepares inputs outputs
  | batchNormalization op => exact op.prepares inputs outputs
  | binary f =>
    exact always_bind fun a _ => always_bind fun b _ => prepares_single fun out =>
      always_ok (f.keepsTypes_kernel a b out)
  | cast | castLike => exact Cast.prepares inputs outputs
  | clip => exact Clip.prepares inputs outputs
  | compress op => exact op.prepares inputs outputs
  | concat op => exact op.prepares inputs outputs
  | constantOfShape op => exact op.prepares outputs
  | conv op => exact op.prepares inputs outputs
  | convTranspose op => exact op.prepares inputs outputs
  | cumSum op => exact op.prepares inputs outputs
  | depthToSpace op => exact op.prepares inputs outputs
  | expand => exact Expand.prepares inputs outputs
  | eyeLike op => exact op.prepares outputs
  | flatten | identity | reshape | squeeze | unsqueeze => exact Reshaping.prepares inputs outputs
  | gather op => exact op.prepares inputs outputs
  | gatherElements op => exact op.prepares inputs outputs
  | gatherND op => exact op.prepares inputs outputs
  | gemm op => exact op.prepares inputs outputs
  | globalPool op => exact op.prepares inputs outputs
  | instanceNormalization op => exact op.prepares inputs outputs
  | layerNormalization op => exact op.prepares inputs outputs
  | lrn op => exact op.prepares inputs outputs
  | matMul => exact MatMul.prepares inputs outputs
  | nonZero => exact NonZero.prepares inputs outputs
  | oneHot op => exact op.prepares inputs outputs
  | pad op => exact op.prepares inputs outputs
  | pool op => exact op.prepares inputs outputs
  | random op => exact op.prepares inputs outputs draws
  | range => exact Range.prepares inputs outputs
  | reduce op => exact op.prepares inputs outputs
  | resize op => exact op.prepares inputs outputs
  | scatterElements op => exact op.prepares inputs outputs
  | scatterND op => exact op.prepares inputs outputs
  | shapeOf op => exact op.prepares inputs outputs
  | sizeOf => exact SizeOf.prepares inputs outputs
  | slice => exact Slice.prepares inputs outputs
  | softmax op => exact op.prepares inputs outputs
  | spaceToDepth op => exact op.prepares inputs outputs
  | split op => exact op.prepares inputs outputs
  | tile => exact Tile.prepares inputs outputs
  | topK op => exact op.prepares inputs outputs
  | transpose op => exact op.prepares inputs outputs
  | trilu op => exact op.prepares inputs outputs
  | unary f =>
    exact always_bind fun x _ => prepares_single fun out => always_ok (f.keepsTypes_kernel x out)
  | variadic f => exact f.prepares inputs outputs
  | select => exact Where.prepares inputs outputs

/-- Whether an operator draws numbers without a seed. -/
def Operator.DrawsAnew : Operator → Prop
  | random op => op.seed = none
  | _ => False

/-- Only what draws without a seed depends on the numbers that are drawn so. -/
theorem Operator.prepare_congr {op : Operator} {draws draws' : Draws}
    (hseeded : ∀ seed, draws (some seed) = draws' (some seed))
    (hanew : op.DrawsAnew → draws none = draws' none) :
    op.prepare draws inputs outputs = op.prepare draws' inputs outputs := by
  cases op with
  | random op =>
    have hsame : draws op.generatorSeed = draws' op.generatorSeed := by
      rw [Sampling.generatorSeed]
      cases hseed : op.seed with
      | none => exact hanew hseed
      | some seed => exact hseeded _
    rw [prepare, prepare, Sampling.prepare, Sampling.prepare, hsame]
  | _ => rfl

/-- What depends on sizes can be resolved wherever a kernel can be prepared. -/
theorem Operator.exists_resolve {op : Operator} {kernel : Kernel}
    (h : op.prepare draws inputs outputs = .ok kernel) :
    ∃ resolved, op.resolve inputs outputs = .ok resolved := by
  cases op with
  | conv op =>
    obtain ⟨x, hx, h⟩ := bind_eq_ok.mp h
    obtain ⟨weight, hweight, h⟩ := bind_eq_ok.mp h
    obtain ⟨out, hout, h⟩ := bind_eq_ok.mp h
    obtain ⟨g, hg, -⟩ := bind_eq_ok.mp h
    simp [resolve, Conv.resolve, hx, hweight, hout, hg]
  | convTranspose op =>
    obtain ⟨x, hx, h⟩ := bind_eq_ok.mp h
    obtain ⟨weight, hweight, h⟩ := bind_eq_ok.mp h
    obtain ⟨out, hout, h⟩ := bind_eq_ok.mp h
    obtain ⟨g, hg, -⟩ := bind_eq_ok.mp h
    simp [resolve, ConvTranspose.resolve, hx, hweight, hout, hg]
  | pad op =>
    obtain ⟨x, hx, h⟩ := bind_eq_ok.mp h
    obtain ⟨ps, hps, -⟩ := bind_eq_ok.mp h
    simp [resolve, Pad.resolve, hx, hps]
  | pool op =>
    obtain ⟨x, hx, h⟩ := bind_eq_ok.mp h
    obtain ⟨out, hout, h⟩ := bind_eq_ok.mp h
    obtain ⟨g, hg, -⟩ := bind_eq_ok.mp h
    simp [resolve, Pool.resolve, hx, hout, hg]
  | _ => exact ⟨_, rfl⟩

theorem Operator.kernel_of_call {op : Operator} {call : Call}
    (h : op.call draws inputs outputs = .ok call) :
    op.prepare draws inputs outputs = .ok call.kernel := by
  obtain ⟨kernel, hkernel, h⟩ := bind_eq_ok.mp h
  obtain ⟨resolved, -, h⟩ := bind_eq_ok.mp h
  cases h
  exact hkernel

theorem Operator.call_run (op : Operator) : (op.call draws inputs outputs >>= Call.run) =
    op.prepare draws inputs outputs >>= fun k => k () := by
  rw [call, bind_assoc]
  refine bind_congr_ok fun kernel hkernel => ?_
  obtain ⟨resolved, hresolved⟩ := exists_resolve draws inputs outputs hkernel
  rw [hresolved]
  rfl

theorem Call.length_write (c : Call) (filled : List Value) :
    (c.write filled).length = c.outputs.length := by
  rw [write, List.length_append, List.length_take, List.length_drop]
  omega

theorem Call.write_of_length {c : Call} {filled : List Value}
    (h : filled.length = c.outputs.length) : c.write filled = filled := by
  rw [write, List.take_of_length_le (Nat.le_of_eq h), List.drop_of_length_le (Nat.le_of_eq h.symm),
    List.append_nil]

theorem Operator.types_of_run {op : Operator} {call : Call} {filled : List Value}
    (hcall : op.call draws inputs outputs = .ok call) (h : call.run = .ok (some filled)) :
    filled.map Value.type = outputs.map Value.type :=
  op.prepares draws inputs outputs _ (op.kernel_of_call draws inputs outputs hcall) _ h _ rfl

theorem Operator.outputs_of_call {op : Operator} {call : Call}
    (h : op.call draws inputs outputs = .ok call) : call.outputs = outputs := by
  obtain ⟨kernel, -, h⟩ := bind_eq_ok.mp h
  obtain ⟨resolved, -, h⟩ := bind_eq_ok.mp h
  cases h
  rfl

def Visits.backward : Visits := fun _ count => (List.range count).reverse

namespace Chain

theorem dispatch_reference (op : Operator) :
    Chain.reference.dispatch op draws inputs outputs =
      op.prepare draws inputs outputs >>= fun k => k () >>= fun r => .ok (r.map ((0, ·))) := by
  have hdispatch : Chain.reference.dispatch op draws inputs outputs =
      (op.call draws inputs outputs >>= Call.run) >>= fun r => .ok (r.map ((0, ·))) := by
    simp only [dispatch, reference, dispatchFrom, Backend.reference, bind_assoc]
    refine bind_congr_ok fun call hcall => bind_congr_ok fun r hr => ?_
    cases r with
    | none => rfl
    | some filled =>
      have htypes := congrArg List.length (op.types_of_run draws inputs outputs hcall hr)
      rw [List.length_map, List.length_map, ← op.outputs_of_call draws inputs outputs hcall]
        at htypes
      exact congrArg (fun vs => ok (some (0, vs))) (Call.write_of_length htypes)
  rw [hdispatch, op.call_run, bind_assoc]

theorem types_of_dispatch_reference {op : Operator} {i : Nat} {filled : List Value}
    (h : Chain.reference.dispatch op draws inputs outputs = .ok (some (i, filled))) :
    filled.map Value.type = outputs.map Value.type := by
  rw [dispatch_reference] at h
  obtain ⟨kernel, hkernel, h⟩ := bind_eq_ok.mp h
  obtain ⟨r, hr, h⟩ := bind_eq_ok.mp h
  obtain ⟨vs, rfl, hvs⟩ := Option.map_eq_some_iff.mp (ok.inj h)
  cases hvs
  exact op.prepares draws inputs outputs kernel hkernel _ hr _ rfl

/-- Equal calls are dispatched alike. -/
theorem dispatch_congr {op op' : Operator} {draws' : Draws} {inputs' : ValueInputs}
    {outputs' : List Value} (h : op.call draws inputs outputs = op'.call draws' inputs' outputs')
    (chain : Chain) :
    chain.dispatch op draws inputs outputs = chain.dispatch op' draws' inputs' outputs' := by
  have hfrom : ∀ start, dispatchFrom op draws inputs outputs start chain =
      dispatchFrom op' draws' inputs' outputs' start chain := by
    induction chain with
    | nil => exact fun _ => rfl
    | cons b bs ih =>
      intro start
      rw [dispatchFrom, dispatchFrom, h]
      refine bind_congr fun call => bind_congr fun filled => ?_
      cases filled with
      | none => exact ih (start + 1)
      | some filled => rfl
  exact hfrom 0

/-- Whatever backends fill, there are as many outputs as before. -/
theorem length_of_dispatch {chain : Chain} {op : Operator} {i : Nat} {filled : List Value}
    (h : chain.dispatch op draws inputs outputs = .ok (some (i, filled))) :
    filled.length = outputs.length := by
  have hfrom : ∀ (chain : Chain) (start : Nat),
      dispatchFrom op draws inputs outputs start chain = .ok (some (i, filled)) →
        filled.length = outputs.length := by
    intro chain
    induction chain with
    | nil =>
      intro start h
      cases h
    | cons b chain ih =>
      intro start h
      obtain ⟨call, hcall, h⟩ := bind_eq_ok.mp h
      obtain ⟨r, -, h⟩ := bind_eq_ok.mp h
      cases r with
      | none => exact ih (start + 1) h
      | some vs =>
        cases h
        rw [call.length_write, op.outputs_of_call draws inputs outputs hcall]
  exact hfrom chain 0 h

end Chain

end TensorGraph
