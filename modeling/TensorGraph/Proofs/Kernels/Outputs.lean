import TensorGraph.Operator.Call
import TensorGraph.Proofs.Follows

/-! Kernels fill the outputs that they are given: whatever they compute, the outputs keep their
types and shapes. The kernel of every operator keeps the types of its outputs. -/

namespace TensorGraph

section

open Outcome

variable {ε α β : Type}

namespace Tensor

abbrev KeepsShape (x : Outcome ε (Tensor α)) (out : Tensor β) : Prop :=
  Always (fun t => t.shape = out.shape) x

theorem ofData_eq_ok {shape : Shape} {data : List α} {t : Tensor α}
    (h : (ofData shape data : Outcome ε (Tensor α)) = .ok t) : t.shape = shape ∧ t.data = data := by
  obtain ⟨_, -, h⟩ := bind_eq_ok.mp h
  split_ifs at h
  cases h
  exact ⟨rfl, rfl⟩

theorem keepsShape_mapIndexedM (f : Index → α → Outcome ε β) (t : Tensor α) :
    KeepsShape (t.mapIndexedM f) t :=
  always_bind fun _ _ _ hu => (ofData_eq_ok hu).1

theorem shape_set? {t u : Tensor α} {index : Index} {a : α} (h : t.set? index a = some u) :
    u.shape = t.shape := by
  obtain ⟨i, -, rfl⟩ := Option.map_eq_some_iff.mp h
  rfl

@[simp] theorem shape_write (t : Tensor α) (entries : List (Index × α)) :
    (t.write entries).shape = t.shape := by
  induction entries generalizing t with
  | nil => rfl
  | cons e entries ih =>
    have hstep : ((t.set? e.1 e.2).getD t).shape = t.shape := by
      cases hs : t.set? e.1 e.2 with
      | none => rfl
      | some u => exact shape_set? hs
    rw [write, List.foldl_cons]
    exact (ih _).trans hstep

theorem keepsShape_writeAt (t : Tensor α) (start : Nat) (values : List α) :
    KeepsShape (t.writeAt start values : Outcome ε (Tensor α)) t := by
  unfold writeAt
  split_ifs
  · exact always_ok rfl
  · exact always_fault

theorem keepsShape_writeBlocks (t : Tensor α) (blocks : List (Outcome ε (List α))) :
    KeepsShape (t.writeBlocks blocks) t := by
  refine always_bind fun r hr => always_ok ?_
  refine foldlM_keeps (P := fun r : Tensor α × Nat => r.1.shape = t.shape) ?_ rfl hr
  intro r r' block _ hshape h
  obtain ⟨b, -, h⟩ := bind_eq_ok.mp h
  obtain ⟨u, hu, h⟩ := bind_eq_ok.mp h
  cases h
  exact (keepsShape_writeAt _ _ _ u hu).trans hshape

end Tensor

open Tensor

namespace Kernel

def KeepsTypes (outputs : List Value) (k : Kernel) : Prop :=
  Always (fun filled => ∀ vs, filled = some vs → vs.map Value.type = outputs.map Value.type) (k ())

theorem keepsTypes_none {outputs : List Value} : KeepsTypes outputs fun _ => .ok none :=
  always_ok fun _ h => by cases h

theorem keepsTypes_bind {outputs : List Value} {x : Outcome OpError α} {f : α → Filled}
    (h : ∀ a, x = .ok a → KeepsTypes outputs fun _ => f a) :
    KeepsTypes outputs fun _ => x >>= f :=
  always_bind h

theorem keepsTypes_float {out : Tensor Float32} {x : Outcome OpError (Tensor Float32)}
    (h : KeepsShape x out) : KeepsTypes [.float out] fun _ => x >>= fun t => filled t := by
  refine always_bind fun t ht => always_ok fun vs hvs => ?_
  cases hvs
  simp [Value.type, Value.Stored.wrap, Value.dtype, Value.shape, h t ht]

theorem keepsTypes_int {out : Tensor Int64} {x : Outcome OpError (Tensor Int64)}
    (h : KeepsShape x out) : KeepsTypes [.int out] fun _ => x >>= fun t => filled t := by
  refine always_bind fun t ht => always_ok fun vs hvs => ?_
  cases hvs
  simp [Value.type, Value.Stored.wrap, Value.dtype, Value.shape, h t ht]

theorem keepsTypes_sameType {x out : Value}
    {f : {α : Type} → [Value.Stored α] → Tensor α → Tensor α → Outcome OpError (Tensor α)}
    (hf : ∀ {α : Type} [Value.Stored α] (x out : Tensor α), KeepsShape (f x out) out) :
    KeepsTypes [out] (sameType x out f) := by
  cases x <;> cases out
  case float.float x out => exact keepsTypes_float (hf x out)
  case int.int x out => exact keepsTypes_int (hf x out)
  all_goals exact keepsTypes_none

theorem keepsTypes_floatOnly {x out : Value}
    {f : Tensor Float32 → Tensor Float32 → Outcome OpError (Tensor Float32)}
    (hf : ∀ x out, KeepsShape (f x out) out) : KeepsTypes [out] (floatOnly x out f) := by
  cases x <;> cases out
  case float.float x out => exact keepsTypes_float (hf x out)
  all_goals exact keepsTypes_none

theorem keepsTypes_intOutput {out : Value} {f : Tensor Int64 → Outcome OpError (Tensor Int64)}
    (hf : ∀ out, KeepsShape (f out) out) : KeepsTypes [out] (intOutput out f) := by
  cases out
  · exact keepsTypes_none
  · exact keepsTypes_int (hf _)

theorem keepsTypes_anyOutput {out : Value}
    {f : {α : Type} → [Value.Stored α] → Tensor α → Outcome OpError (Tensor α)}
    (hf : ∀ {α : Type} [Value.Stored α] (out : Tensor α), KeepsShape (f out) out) :
    KeepsTypes [out] (anyOutput out f) := by
  cases out
  · exact keepsTypes_float (hf _)
  · exact keepsTypes_int (hf _)

theorem keepsTypes_copy {x out : Value} : KeepsTypes [out] (copy x out) :=
  keepsTypes_sameType fun _ _ => always_bind fun _ _ => always_ok rfl

theorem keepsTypes_unless {outputs : List Value} {p : Prop} {_ : Decidable p} {x : Filled}
    (h : KeepsTypes outputs fun _ => x) :
    KeepsTypes outputs fun _ => if p then .ok none else x := by
  by_cases hp : p
  · simp only [if_pos hp]
    exact keepsTypes_none
  · simpa only [if_neg hp] using h

theorem keepsTypes_when {outputs : List Value} {p : Prop} {_ : Decidable p} {x : Filled}
    (h : KeepsTypes outputs fun _ => x) :
    KeepsTypes outputs fun _ => if p then x else .ok none := by
  by_cases hp : p
  · simpa only [if_pos hp] using h
  · simp only [if_neg hp]
    exact keepsTypes_none

abbrev Prepares (outputs : List Value) (p : Outcome OpError Kernel) : Prop :=
  Always (KeepsTypes outputs) p

theorem eq_single {outputs : List Value} {out : Value} (h : single outputs = .ok out) :
    outputs = [out] := by
  unfold single at h
  split at h
  · exact congrArg (fun v => [v]) (ok.inj h)
  · cases h

theorem prepares_single {outputs : List Value} {f : Value → Outcome OpError Kernel}
    (h : ∀ out, Prepares [out] (f out)) : Prepares outputs (single outputs >>= f) := by
  refine always_bind fun out hout => ?_
  obtain rfl := eq_single hout
  exact h out

end Kernel

end

section

open Outcome Tensor Kernel

variable {ε α β : Type} (inputs : ValueInputs) (outputs : List Value)

theorem BinaryFn.keepsShape_mapPairs (f : α → α → β) (a b : Tensor α) (out : Tensor β) :
    KeepsShape (mapPairs f a b out : Outcome ε (Tensor β)) out :=
  always_bind fun _ _ => always_bind fun _ _ => always_ok rfl

theorem UnaryFn.keepsTypes_kernel (f : UnaryFn) (x out : Value) :
    KeepsTypes [out] (f.kernel x out) := by
  refine keepsTypes_unless ?_
  cases x <;> cases out
  case float.int x out => exact keepsTypes_when (keepsTypes_int (x := .ok _) (always_ok rfl))
  case float.float x out => exact keepsTypes_float (x := .ok _) (always_ok rfl)
  case int.int x out => exact keepsTypes_int (x := .ok _) (always_ok rfl)
  case int.float x out => exact keepsTypes_none

theorem BinaryFn.keepsTypes_kernel (f : BinaryFn) (a b out : Value) :
    KeepsTypes [out] (f.kernel a b out) := by
  refine keepsTypes_unless ?_
  cases a <;> cases b <;> cases out
  case float.float.int a b out =>
    exact keepsTypes_when (keepsTypes_int (keepsShape_mapPairs _ a b out))
  case float.float.float a b out => exact keepsTypes_float (keepsShape_mapPairs _ a b out)
  case int.int.int a b out =>
    exact keepsTypes_int (always_bind fun _ _ => always_bind fun _ _ => always_bind fun _ _ =>
      always_ok rfl)
  all_goals exact keepsTypes_none

theorem VariadicFn.keepsShape_fold (f : α → α → α) (inputs : List (Tensor α)) (out : Tensor α) :
    KeepsShape (fold f inputs out : Outcome ε (Tensor α)) out := by
  cases inputs with
  | nil => exact always_ok rfl
  | cons first rest =>
    refine always_bind fun start _ t ht => ?_
    refine foldlM_keeps (P := fun t => t.shape = out.shape) ?_ rfl ht
    intro s t u _ hs h
    obtain ⟨xs, -, h⟩ := bind_eq_ok.mp h
    cases h
    exact hs

theorem VariadicFn.prepares (f : VariadicFn) : Prepares outputs (f.prepare inputs outputs) := by
  refine always_bind fun xs _ => prepares_single fun out => always_ok ?_
  refine keepsTypes_unless ?_
  cases out with
  | float out =>
    refine keepsTypes_bind fun xs _ => ?_
    refine keepsTypes_bind fun t ht => ?_
    have hshape := keepsShape_fold f.combine.onFloat xs out t ht
    refine keepsTypes_float (x := .ok _) (always_ok ?_)
    split_ifs <;> exact hshape
  | int out => exact keepsTypes_bind fun xs _ => keepsTypes_int (keepsShape_fold _ xs out)

theorem Where.prepares : Prepares outputs (Where.prepare inputs outputs) := by
  refine always_bind fun c _ => always_bind fun x _ => always_bind fun y _ => ?_
  refine prepares_single fun out => ?_
  cases c with
  | float _ => exact always_ok keepsTypes_none
  | int c =>
    refine always_ok (keepsTypes_sameType fun x out => always_bind fun y _ => ?_)
    exact always_bind fun _ _ => always_bind fun _ _ => always_bind fun _ _ => always_ok rfl

theorem Clip.prepares : Prepares outputs (Clip.prepare inputs outputs) :=
  always_bind fun _ _ => prepares_single fun _ => always_ok (keepsTypes_sameType fun _ _ =>
    always_bind fun _ _ => always_bind fun _ _ => always_ok rfl)

theorem ConstantOfShape.prepares (op : ConstantOfShape) :
    Prepares outputs (op.prepare outputs) := by
  refine prepares_single fun out => always_ok ?_
  unfold KeepsTypes
  cases op.value <;> cases out
  case int.int n out => exact keepsTypes_int (x := .ok _) (always_ok rfl)
  case float.float x out => exact keepsTypes_float (x := .ok _) (always_ok rfl)
  all_goals exact keepsTypes_none

theorem EyeLike.prepares (op : EyeLike) : Prepares outputs (op.prepare outputs) :=
  prepares_single fun _ => always_ok (keepsTypes_anyOutput fun _ =>
    always_bind fun _ _ => always_ok rfl)

theorem Range.prepares : Prepares outputs (Range.prepare inputs outputs) :=
  always_bind fun _ _ => always_bind fun _ _ => prepares_single fun _ => always_ok
    (keepsTypes_anyOutput fun _ => always_bind fun _ _ => always_bind fun _ _ =>
      always_bind fun _ _ => always_bind fun _ _ => always_bind fun _ _ => always_ok rfl)

theorem Cast.prepares : Prepares outputs (Cast.prepare inputs outputs) := by
  refine always_bind fun x _ => prepares_single fun out => always_ok ?_
  unfold KeepsTypes Cast.kernel
  cases x <;> cases out
  case float.float x out => exact keepsTypes_float (x := .ok _) (always_ok rfl)
  case float.int x out => exact keepsTypes_int (x := .ok _) (always_ok rfl)
  case int.float x out => exact keepsTypes_float (x := .ok _) (always_ok rfl)
  case int.int x out => exact keepsTypes_int (x := .ok _) (always_ok rfl)

theorem Sampling.prepares (op : Sampling) (draws : Draws) :
    Prepares outputs (op.prepare draws inputs outputs) := by
  refine prepares_single fun out => always_ok ?_
  unfold KeepsTypes
  cases out with
  | int _ => exact keepsTypes_none
  | float out =>
    refine always_bind fun input _ => always_bind fun xs _ => ?_
    exact keepsTypes_float (x := .ok (out.overwrite xs)) (always_ok rfl)

theorem Reshaping.prepares : Prepares outputs (Reshaping.prepare inputs outputs) :=
  always_bind fun _ _ => prepares_single fun _ => always_ok keepsTypes_copy

theorem Transpose.prepares (op : Transpose) : Prepares outputs (op.prepare inputs outputs) :=
  always_bind fun _ _ => always_bind fun _ _ => prepares_single fun _ => always_ok
    (keepsTypes_sameType fun _ _ => always_bind fun _ _ => always_bind fun _ _ => always_ok rfl)

theorem Expand.prepares : Prepares outputs (Expand.prepare inputs outputs) :=
  always_bind fun _ _ => prepares_single fun _ => always_ok (keepsTypes_sameType fun _ _ =>
    always_bind fun _ _ => always_ok rfl)

theorem Tile.prepares : Prepares outputs (Tile.prepare inputs outputs) :=
  always_bind fun _ _ => prepares_single fun _ => always_ok (keepsTypes_sameType fun _ out =>
    keepsShape_mapIndexedM _ out)

theorem Concat.prepares (op : Concat) : Prepares outputs (op.prepare inputs outputs) :=
  always_bind fun _ _ => always_bind fun _ _ => always_bind fun _ _ => prepares_single fun _ =>
    always_ok (keepsTypes_anyOutput fun out => always_bind fun _ _ => always_bind fun _ _ =>
      always_bind fun _ _ => keepsShape_writeBlocks out _)

theorem Slice.prepares : Prepares outputs (Slice.prepare inputs outputs) :=
  always_bind fun _ _ => always_bind fun _ _ => prepares_single fun _ => always_ok
    (keepsTypes_sameType fun _ out => keepsShape_mapIndexedM _ out)

theorem Pad.prepares (op : Pad) : Prepares outputs (op.prepare inputs outputs) :=
  always_bind fun _ _ => always_bind fun _ _ => prepares_single fun _ => always_ok
    (keepsTypes_sameType fun _ out => always_bind fun _ _ => keepsShape_mapIndexedM _ out)

theorem Trilu.prepares (op : Trilu) : Prepares outputs (op.prepare inputs outputs) := by
  refine always_bind fun _ _ => always_bind fun _ _ => prepares_single fun _ => always_ok ?_
  refine keepsTypes_sameType fun x out => always_bind fun _ _ => always_bind fun _ _ => ?_
  refine always_bind fun _ _ => always_bind fun _ _ => always_bind fun _ _ => ?_
  split_ifs
  · exact always_ok rfl
  · exact always_bind fun _ _ => always_ok rfl

theorem DepthToSpace.prepares (op : DepthToSpace) :
    Prepares outputs (op.prepare inputs outputs) :=
  always_bind fun _ _ => prepares_single fun _ => always_ok (keepsTypes_sameType fun _ out =>
    always_bind fun _ _ => keepsShape_mapIndexedM _ out)

theorem SpaceToDepth.prepares (op : SpaceToDepth) :
    Prepares outputs (op.prepare inputs outputs) :=
  always_bind fun _ _ => prepares_single fun _ => always_ok (keepsTypes_sameType fun _ out =>
    always_bind fun _ _ => always_bind fun _ _ => always_bind fun _ _ =>
      always_ok (shape_write out _))

theorem ShapeOf.prepares (op : ShapeOf) : Prepares outputs (op.prepare inputs outputs) :=
  always_bind fun _ _ => prepares_single fun _ => always_ok (keepsTypes_intOutput fun _ =>
    always_ok rfl)

theorem SizeOf.prepares : Prepares outputs (SizeOf.prepare inputs outputs) :=
  always_bind fun _ _ => prepares_single fun _ => always_ok (keepsTypes_intOutput fun _ =>
    always_ok rfl)

theorem Gather.prepares (op : Gather) : Prepares outputs (op.prepare inputs outputs) :=
  always_bind fun _ _ => always_bind fun _ _ => always_bind fun _ _ => prepares_single fun _ =>
    always_ok (keepsTypes_bind fun _ _ => keepsTypes_sameType fun _ out =>
      always_bind fun _ _ => always_bind fun _ _ => keepsShape_writeBlocks out _)

theorem GatherElements.prepares (op : GatherElements) :
    Prepares outputs (op.prepare inputs outputs) :=
  always_bind fun _ _ => always_bind fun _ _ => always_bind fun _ _ => prepares_single fun _ =>
    always_ok (keepsTypes_bind fun _ _ => keepsTypes_sameType fun _ _ =>
      always_bind fun _ _ => always_bind fun _ _ => always_ok rfl)

theorem GatherND.prepares (op : GatherND) : Prepares outputs (op.prepare inputs outputs) :=
  always_bind fun _ _ => always_bind fun _ _ => prepares_single fun _ => always_ok
    (keepsTypes_bind fun _ _ => keepsTypes_sameType fun _ _ =>
      always_bind fun _ _ => always_bind fun _ _ => always_bind fun _ _ => always_ok rfl)

namespace Scatter

theorem keepsShape_copyOf (x out : Tensor α) : KeepsShape (copyOf x out) out :=
  always_bind fun _ _ => always_ok rfl

theorem shape_update [Element α] {c : Combination} {t u : Tensor α} {index : Index} {a : α}
    (h : update c t index a = .ok u) : u.shape = t.shape := by
  obtain ⟨_, -, h⟩ := bind_eq_ok.mp h
  obtain ⟨b, -, h⟩ := bind_eq_ok.mp h
  cases hs : t.set? index b with
  | none => simp [hs] at h
  | some v =>
    simp only [hs, ofOption_some, ok.injEq] at h
    exact h ▸ shape_set? hs

end Scatter

theorem ScatterElements.prepares (op : ScatterElements) :
    Prepares outputs (op.prepare inputs outputs) := by
  refine always_bind fun _ _ => always_bind fun _ _ => always_bind fun _ _ => ?_
  refine always_bind fun _ _ => prepares_single fun _ => always_ok (keepsTypes_bind fun _ _ => ?_)
  refine keepsTypes_sameType fun x out => always_bind fun updates _ => ?_
  refine always_bind fun t ht => always_bind fun _ _ u hu => ?_
  refine foldlM_keeps (P := fun t => t.shape = out.shape) ?_ (Scatter.keepsShape_copyOf x out t ht)
    hu
  rintro s t ⟨_, _, _⟩ _ hs h
  obtain ⟨_, -, h⟩ := bind_eq_ok.mp h
  exact (Scatter.shape_update h).trans hs

theorem ScatterND.prepares (op : ScatterND) : Prepares outputs (op.prepare inputs outputs) := by
  refine always_bind fun _ _ => always_bind fun _ _ => always_bind fun _ _ => ?_
  refine prepares_single fun _ => always_ok (keepsTypes_bind fun _ _ => ?_)
  refine keepsTypes_sameType fun x out => always_bind fun updates _ => ?_
  refine always_bind fun t ht => always_bind fun _ _ => always_bind fun _ _ u hu => ?_
  refine foldlM_keeps (P := fun t => t.shape = out.shape) ?_ (Scatter.keepsShape_copyOf x out t ht)
    hu
  rintro s t ⟨_, _⟩ _ hs h
  obtain ⟨_, -, h⟩ := bind_eq_ok.mp h
  obtain ⟨_, -, h⟩ := bind_eq_ok.mp h
  exact (Scatter.shape_update h).trans hs

theorem OneHot.prepares (op : OneHot) : Prepares outputs (op.prepare inputs outputs) := by
  refine always_bind fun _ _ => always_bind fun _ _ => always_bind fun _ _ => ?_
  refine prepares_single fun _ => always_ok (keepsTypes_bind fun _ _ => ?_)
  refine keepsTypes_sameType fun values out => ?_
  split
  · exact always_bind fun _ _ => always_bind fun _ _ => always_bind fun _ _ => always_ok rfl
  · exact always_error _

theorem NonZero.keepsShape_fill [Element α] (x : Tensor α) (out : Tensor Int64) :
    KeepsShape (fill x out : Outcome ε (Tensor Int64)) out := by
  refine always_bind fun _ _ => always_bind fun _ _ u hu => ?_
  refine foldlM_keeps (P := fun t => t.shape = out.shape) ?_ rfl hu
  rintro s t ⟨_, _⟩ _ hs h
  exact (keepsShape_writeAt _ _ _ t h).trans hs

theorem NonZero.prepares : Prepares outputs (NonZero.prepare inputs outputs) := by
  refine always_bind fun x _ => prepares_single fun _ =>
    always_ok (keepsTypes_intOutput fun out => ?_)
  cases x <;> exact keepsShape_fill _ out

theorem Compress.prepares (op : Compress) : Prepares outputs (op.prepare inputs outputs) := by
  refine always_bind fun _ _ => always_bind fun _ _ => always_bind fun dim _ => ?_
  refine prepares_single fun _ => always_ok (keepsTypes_bind fun _ _ => ?_)
  refine keepsTypes_sameType fun x out => ?_
  cases dim with
  | none => exact always_bind fun _ _ => always_ok rfl
  | some dim => exact always_bind fun _ _ => always_bind fun _ _ => keepsShape_writeBlocks out _

end

end TensorGraph
