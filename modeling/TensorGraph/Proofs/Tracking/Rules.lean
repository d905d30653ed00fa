import TensorGraph.Proofs.Rules.Operators
import TensorGraph.Proofs.Tracking.Tensor

/-! The rule of every operator tells only of regular tensors, if its inputs are regular. Most rules
tell no elements of their own; the others compute elements of the type of their output. -/

namespace TensorGraph

open Outcome SymTensor SymElement

variable {sym : SymInputs} {x : Outcome RuleError (List SymTensor)}

abbrev TellsRegular (x : Outcome RuleError (List SymTensor)) : Prop :=
  Always (fun ts => ∀ t ∈ ts, t.Regular) x

theorem tellsRegular_single {t : SymTensor} (h : t.Regular) : TellsRegular (.ok [t]) :=
  always_ok fun _ ht => List.mem_singleton.mp ht ▸ h

theorem tellsRegular_ofShape (dtype : DataType) (s : SymShape) :
    TellsRegular (.ok [.ofShape dtype s]) :=
  tellsRegular_single (regular_ofShape dtype s)

theorem tellsRegular_unranked (dtype : DataType) : TellsRegular (.ok [.unranked dtype]) :=
  tellsRegular_single (regular_unranked dtype)

def SymInputs.Regular (sym : SymInputs) : Prop := ∀ t ∈ Inputs.given sym, t.Regular

namespace SymInputs

theorem mem_given_of_demand {i : Nat} {t : SymTensor} (h : sym.demand i = .ok t) :
    t ∈ Inputs.given sym :=
  mem_given_of_find? (orRefuse_eq_ok.mp h)

theorem Regular.demand (h : sym.Regular) {i : Nat} {t : SymTensor} (ht : sym.demand i = .ok t) :
    t.Regular :=
  h t (mem_given_of_demand ht)

end SymInputs

section Shapes

open Normalization

theorem Clip.tellsRegular (sym : SymInputs) : TellsRegular (Clip.infer sym) :=
  always_bind fun _ _ => always_bind fun _ _ => tellsRegular_ofShape _ _

theorem EyeLike.tellsRegular (op : EyeLike) (sym : SymInputs) : TellsRegular (op.infer sym) :=
  always_bind fun _ _ => always_bind fun _ _ => tellsRegular_ofShape _ _

theorem NonZero.tellsRegular (sym : SymInputs) : TellsRegular (NonZero.infer sym) :=
  always_bind fun _ _ => tellsRegular_ofShape _ _

theorem Sampling.tellsRegular (op : Sampling) (sym : SymInputs) : TellsRegular (op.infer sym) := by
  unfold infer
  split
  · exact tellsRegular_ofShape _ _
  · exact always_bind fun _ _ => always_bind fun _ _ => tellsRegular_ofShape _ _

theorem Trilu.tellsRegular (sym : SymInputs) : TellsRegular (Trilu.infer sym) :=
  always_bind fun _ _ => always_bind fun _ _ => always_bind fun _ _ => tellsRegular_ofShape _ _

theorem Pool.tellsRegular (op : Pool) (sym : SymInputs) : TellsRegular (op.infer sym) := by
  refine always_bind fun _ _ => always_bind fun dims _ => ?_
  cases dims with
  | none => exact tellsRegular_unranked _
  | some ds =>
    exact always_bind fun _ _ => always_bind fun _ _ => always_bind fun _ _ =>
      tellsRegular_ofShape _ _

theorem GlobalPool.tellsRegular (sym : SymInputs) : TellsRegular (GlobalPool.infer sym) := by
  refine always_bind fun _ _ => always_bind fun dims _ => ?_
  cases dims with
  | none => exact tellsRegular_unranked _
  | some ds => exact tellsRegular_ofShape _ _

theorem Conv.tellsRegular (op : Conv) (sym : SymInputs) : TellsRegular (op.infer sym) := by
  rw [infer_eq]
  refine always_bind fun _ _ => always_bind fun _ _ => always_bind fun _ _ => ?_
  refine always_bind fun _ _ => always_bind fun dims _ => ?_
  rcases dims with _ | ⟨ds, ws⟩
  · exact tellsRegular_unranked _
  · refine always_bind fun _ _ => always_bind fun _ _ => always_bind fun _ _ => ?_
    refine always_bind fun _ _ => always_bind fun _ _ => always_bind fun _ _ => ?_
    exact tellsRegular_ofShape _ _

theorem ConvTranspose.tellsRegular (op : ConvTranspose) (sym : SymInputs) :
    TellsRegular (op.infer sym) := by
  rw [infer_eq]
  refine always_bind fun _ _ => always_bind fun _ _ => always_bind fun _ _ => ?_
  refine always_bind fun _ _ => always_bind fun dims _ => ?_
  rcases dims with _ | ⟨ds, ws⟩
  · exact tellsRegular_unranked _
  · refine always_bind fun _ _ => always_bind fun _ _ => always_bind fun _ _ => ?_
    refine always_bind fun _ _ => always_bind fun _ _ => always_bind fun _ _ => ?_
    exact tellsRegular_ofShape _ _

theorem Normalization.tellsRegular_demandFloat (x : SymTensor) (least : Nat) :
    Always SymTensor.Regular (demandFloat x least) :=
  always_bind fun _ _ => always_bind fun _ _ => always_ok (regular_ofShape _ _)

theorem BatchNormalization.tellsRegular (sym : SymInputs) :
    TellsRegular (BatchNormalization.infer sym) := by
  rw [infer_eq]
  refine always_bind fun x _ => always_bind fun _ _ => always_bind fun _ _ => ?_
  refine always_bind fun _ _ => always_bind fun _ _ => always_bind fun y hy => ?_
  exact tellsRegular_single (tellsRegular_demandFloat x 2 y hy)

theorem InstanceNormalization.tellsRegular (sym : SymInputs) :
    TellsRegular (InstanceNormalization.infer sym) := by
  refine always_bind fun x _ => always_bind fun _ _ => always_bind fun _ _ => ?_
  refine always_bind fun _ _ => always_bind fun _ _ => always_bind fun y hy => ?_
  exact tellsRegular_single (tellsRegular_demandFloat x 3 y hy)

theorem Lrn.tellsRegular (op : Lrn) (sym : SymInputs) : TellsRegular (op.infer sym) :=
  always_bind fun x _ => always_bind fun _ _ => always_bind fun y hy =>
    tellsRegular_single (tellsRegular_demandFloat x 2 y hy)

theorem LayerNormalization.tellsRegular (op : LayerNormalization) (sym : SymInputs) :
    TellsRegular (op.infer sym) := by
  rw [infer_eq]
  refine always_bind fun x _ => always_bind fun _ _ => always_bind fun y hy => ?_
  exact always_bind fun _ _ => tellsRegular_single (tellsRegular_demandFloat x 1 y hy)

theorem Softmax.tellsRegular (op : Softmax) (sym : SymInputs) : TellsRegular (op.infer sym) := by
  rw [infer_eq]
  refine always_bind fun x _ => always_bind fun y hy => ?_
  exact always_bind fun _ _ => tellsRegular_single (tellsRegular_demandFloat x 1 y hy)

theorem MatMul.tellsRegular (sym : SymInputs) : TellsRegular (MatMul.infer sym) := by
  refine always_bind fun a _ => always_bind fun b _ => always_bind fun _ _ => ?_
  cases a.shape with
  | unknown => exact tellsRegular_unranked _
  | ranked left =>
    cases b.shape with
    | unknown => exact tellsRegular_unranked _
    | ranked right =>
      exact always_bind fun _ _ => always_bind fun _ _ => always_bind fun _ _ =>
        tellsRegular_ofShape _ _

theorem Gemm.tellsRegular (op : Gemm) (sym : SymInputs) : TellsRegular (op.infer sym) := by
  refine always_bind fun _ _ => always_bind fun _ _ => always_bind fun _ _ => ?_
  refine always_bind fun _ _ => always_bind fun _ _ => always_bind fun _ _ => ?_
  cases Inputs.find? sym 2 with
  | none => exact tellsRegular_ofShape _ _
  | some c =>
    exact always_bind fun _ _ => always_bind fun _ _ => always_bind fun _ _ =>
      tellsRegular_ofShape _ _

theorem ArgReduce.tellsRegular (op : ArgReduce) (sym : SymInputs) :
    TellsRegular (op.infer sym) := by
  rw [infer_eq]
  exact always_bind fun _ _ => always_bind fun _ _ => always_bind fun _ _ =>
    tellsRegular_ofShape _ _

theorem CumSum.tellsRegular (sym : SymInputs) : TellsRegular (CumSum.infer sym) := by
  refine always_bind fun x _ => always_bind fun t _ => ?_
  split
  · exact always_bind fun _ _ => tellsRegular_ofShape _ _
  · exact tellsRegular_ofShape _ _

theorem TopK.tellsRegular (op : TopK) (sym : SymInputs) : TellsRegular (op.infer sym) := by
  refine always_bind fun x _ => always_bind fun _ _ => always_bind fun _ _ => ?_
  refine always_bind fun s _ => always_ok fun t ht => ?_
  rcases List.mem_pair.mp ht with rfl | rfl <;> exact regular_ofShape _ _

theorem Compress.tellsRegular (op : Compress) (sym : SymInputs) : TellsRegular (op.infer sym) := by
  refine always_bind fun x _ => always_bind fun _ _ => always_bind fun _ _ => ?_
  refine always_bind fun _ _ => ?_
  split
  · exact tellsRegular_ofShape _ _
  · exact always_bind fun _ _ => tellsRegular_ofShape _ _
  · exact tellsRegular_unranked _

theorem GatherElements.tellsRegular (op : GatherElements) (sym : SymInputs) :
    TellsRegular (op.infer sym) := by
  rw [infer_eq]
  refine always_bind fun _ _ => always_bind fun _ _ => always_bind fun _ _ => ?_
  exact always_bind fun _ _ => tellsRegular_ofShape _ _

theorem GatherND.tellsRegular (op : GatherND) (sym : SymInputs) : TellsRegular (op.infer sym) := by
  rw [infer_eq]
  refine always_bind fun x _ => always_bind fun t _ => always_bind fun _ _ => ?_
  split
  · refine always_bind fun _ _ => always_bind fun _ _ => ?_
    split
    · exact tellsRegular_unranked _
    · exact always_bind fun _ _ => always_bind fun _ _ => tellsRegular_ofShape _ _
  · exact tellsRegular_unranked _

theorem Scatter.regular_output (x updates : SymTensor) :
    Always SymTensor.Regular (Scatter.output x updates) :=
  always_bind fun _ _ => always_ok (regular_ofShape _ _)

theorem ScatterElements.tellsRegular (op : ScatterElements) (sym : SymInputs) :
    TellsRegular (op.infer sym) := by
  rw [infer_eq]
  refine always_bind fun x _ => always_bind fun _ _ => always_bind fun u _ => ?_
  refine always_bind fun _ _ => always_bind fun _ _ => always_bind fun _ _ => ?_
  exact always_bind fun y hy => tellsRegular_single (Scatter.regular_output x u y hy)

theorem ScatterND.tellsRegular (sym : SymInputs) : TellsRegular (ScatterND.infer sym) := by
  refine always_bind fun x _ => always_bind fun _ _ => always_bind fun u _ => ?_
  refine always_bind fun _ _ => always_bind fun _ _ => ?_
  exact always_bind fun y hy => tellsRegular_single (Scatter.regular_output x u y hy)

theorem OneHot.tellsRegular (op : OneHot) (sym : SymInputs) : TellsRegular (op.infer sym) := by
  refine always_bind fun indices _ => always_bind fun _ _ => always_bind fun _ _ => ?_
  refine always_bind fun _ _ => always_bind fun _ _ => always_bind fun _ _ => ?_
  refine always_bind fun _ _ => ?_
  cases indices.shape with
  | unknown => exact tellsRegular_unranked _
  | ranked ds => exact always_bind fun _ _ => tellsRegular_ofShape _ _

theorem Pad.tellsRegular (op : Pad) (sym : SymInputs) : TellsRegular (op.infer sym) := by
  refine always_bind fun x _ => always_bind fun pads _ => always_bind fun _ _ => ?_
  refine always_bind fun _ _ => always_bind fun _ _ => ?_
  cases pads.elements with
  | none => exact tellsRegular_ofShape _ _
  | some es =>
    refine always_bind fun full _ => ?_
    cases full with
    | none => exact tellsRegular_ofShape _ _
    | some pads => exact always_bind fun _ _ => tellsRegular_ofShape _ _

theorem Tile.tellsRegular (sym : SymInputs) : TellsRegular (Tile.infer sym) := by
  refine always_bind fun x _ => always_bind fun _ _ => always_bind fun _ _ => ?_
  refine always_bind fun sizes _ => ?_
  cases sizes with
  | unknown => exact tellsRegular_ofShape _ _
  | ranked rs => exact always_bind fun _ _ => tellsRegular_ofShape _ _

theorem Resize.tellsRegular (sym : SymInputs) : TellsRegular (Resize.infer sym) := by
  refine always_bind fun x _ => always_bind fun _ _ => ?_
  cases nonEmpty (Inputs.find? sym 2) with
  | some scales => exact always_bind fun _ _ => tellsRegular_ofShape _ _
  | none =>
    cases nonEmpty (Inputs.find? sym 3) with
    | some sizes => exact always_bind fun _ _ => tellsRegular_ofShape _ _
    | none => exact always_error _

theorem DepthToSpace.tellsRegular (op : DepthToSpace) (sym : SymInputs) :
    TellsRegular (op.infer sym) := by
  refine always_bind fun _ _ => always_bind fun _ _ => always_bind fun _ _ => ?_
  exact always_bind fun _ _ => always_bind fun _ _ => always_bind fun _ _ =>
    tellsRegular_ofShape _ _

theorem SpaceToDepth.tellsRegular (op : SpaceToDepth) (sym : SymInputs) :
    TellsRegular (op.infer sym) := by
  refine always_bind fun _ _ => always_bind fun _ _ => always_bind fun _ _ => ?_
  refine always_bind fun _ _ => always_bind fun _ _ => ?_
  exact always_bind fun _ _ => always_bind fun _ _ => tellsRegular_ofShape _ _

end Shapes

section Kept

theorem Reshaping.tellsRegular (h : sym.Regular) : TellsRegular (Reshaping.inferIdentity sym) :=
  always_bind fun _ hx => tellsRegular_single (h.demand hx)

theorem Reshape.tellsRegular (op : Reshape) (h : sym.Regular) : TellsRegular (op.infer sym) := by
  refine always_bind fun x hx => always_bind fun _ _ => always_bind fun _ _ => ?_
  exact always_bind fun _ _ => always_bind fun s _ => tellsRegular_single ((h.demand hx).reshaped s)

theorem Flatten.tellsRegular (op : Flatten) (h : sym.Regular) : TellsRegular (op.infer sym) := by
  refine always_bind fun x hx => ?_
  cases hs : x.shape with
  | unknown => exact tellsRegular_ofShape _ _
  | ranked ds =>
    simp only [ite_bind]
    exact always_bind fun _ _ => always_bind fun _ _ =>
      tellsRegular_single ((h.demand hx).reshaped _)

theorem Squeeze.tellsRegular (h : sym.Regular) : TellsRegular (Squeeze.infer sym) := by
  refine always_bind fun x hx => ?_
  cases x.shape with
  | unknown => exact tellsRegular_unranked _
  | ranked ds => exact always_bind fun s _ => tellsRegular_single ((h.demand hx).reshaped s)

theorem Unsqueeze.tellsRegular (h : sym.Regular) : TellsRegular (Unsqueeze.infer sym) := by
  refine always_bind fun x hx => always_bind fun _ _ => always_bind fun _ _ => ?_
  exact always_bind fun s _ => tellsRegular_single ((h.demand hx).reshaped s)

theorem Transpose.tellsRegular (op : Transpose) (h : sym.Regular) :
    TellsRegular (op.infer sym) := by
  refine always_bind fun x hx => ?_
  cases x.shape with
  | unknown => exact tellsRegular_ofShape _ _
  | ranked ds => exact always_bind fun _ _ => tellsRegular_single ((h.demand hx).reshaped _)

end Kept

namespace BinaryFn

theorem resultType_int (f : BinaryFn) : f.resultType .int = .int := by
  cases f <;> rfl

theorem ofType_onElements (f : BinaryFn) {dtype : DataType} {a b : SymElement} (ha : a.OfType dtype)
    (hb : b.OfType dtype) :
    (f.onElements a b).OfType (f.resultType dtype) := by
  unfold onElements
  split
  · exact ha.add hb
  · exact ha.sub hb
  · exact ha.mul hb
  · exact ha.div
  · next m n _ _ _ _ =>
    obtain rfl := ha.eq_int
    rw [resultType_int]
    cases f.onInt? m n <;> trivial
  · next m n _ _ _ _ =>
    obtain rfl := ha.eq_float
    unfold resultType
    split_ifs <;> trivial
  · split_ifs
    · exact ofType_int 1
    · exact ofType_unknown _
  · exact ofType_unknown _

theorem tellsRegular (f : BinaryFn) (h : sym.Regular) : TellsRegular (f.infer sym) := by
  refine always_bind fun a ha => always_bind fun b hb => always_bind fun _ htypes => ?_
  rw [refuseIf_eq_ok, not_not] at htypes
  refine always_bind fun y hy => tellsRegular_single ?_
  obtain ⟨s, -, hy⟩ := bind_eq_ok.mp hy
  cases hy
  have hfresh := regular_ofShape (f.resultType a.dtype) s
  split_ifs
  · exact hfresh.fillFrom fun i =>
      f.ofType_onElements ((h.demand ha).readAt i) (htypes ▸ (h.demand hb).readAt i)
  · exact hfresh

end BinaryFn

namespace VariadicFn

theorem resultType_combine (f : VariadicFn) (dtype : DataType) :
    f.combine.resultType dtype = dtype := by
  cases f <;> rfl

theorem ofType_onElements (f : VariadicFn) {dtype : DataType} {es : List SymElement}
    (h : ∀ e ∈ es, e.OfType dtype) : (f.onElements es).OfType dtype := by
  cases es with
  | nil => exact ofType_unknown dtype
  | cons e es =>
    have hstep : ∀ a b : SymElement, a.OfType dtype → b.OfType dtype →
        (f.combine.onElements a b).OfType dtype := by
      intro a b ha hb
      have hresult := f.combine.ofType_onElements ha hb
      rwa [resultType_combine] at hresult
    have hfold : ∀ rest : List SymElement, (∀ a ∈ rest, a.OfType dtype) → ∀ e : SymElement,
        e.OfType dtype → (rest.foldl f.combine.onElements e).OfType dtype := by
      intro rest
      induction rest with
      | nil => exact fun _ e he => he
      | cons a rest ih =>
        intro hrest e he
        have ha := hrest a List.mem_cons_self
        exact ih (fun b hb => hrest b (List.mem_cons_of_mem a hb)) _ (hstep e a he ha)
    exact hfold es (fun a ha => h a (List.mem_cons_of_mem e ha)) e (h e List.mem_cons_self)

theorem tellsRegular (f : VariadicFn) (h : sym.Regular) : TellsRegular (f.infer sym) := by
  refine always_bind fun first hfirst => always_bind fun _ htypes => always_bind fun y hy => ?_
  refine tellsRegular_single ?_
  obtain ⟨s, -, hy⟩ := bind_eq_ok.mp hy
  cases hy
  have hfresh := regular_ofShape first.dtype s
  split_ifs
  · refine hfresh.fillFrom fun i => f.ofType_onElements fun e he => ?_
    obtain ⟨t, ht, rfl⟩ := List.mem_map.mp he
    have hsame : t.dtype = first.dtype := by
      by_contra hne
      exact refuseIf_eq_ok.mp htypes (List.any_eq_true.mpr ⟨t, ht, by simpa using hne⟩)
    exact hsame ▸ (h t ht).readAt i
  · exact hfresh

end VariadicFn

theorem Where.tellsRegular (h : sym.Regular) : TellsRegular (Where.infer sym) := by
  refine always_bind fun c _ => always_bind fun a ha => always_bind fun b hb => ?_
  refine always_bind fun _ _ => always_bind fun _ htypes => always_bind fun y hy => ?_
  rw [refuseIf_eq_ok, not_not] at htypes
  obtain ⟨s, -, hy⟩ := bind_eq_ok.mp hy
  cases hy
  refine tellsRegular_single ((regular_ofShape _ s).fillFrom fun i => ?_)
  have hx := (h.demand ha).readAt i
  have hy : (b.readAt i).OfType a.dtype := htypes ▸ (h.demand hb).readAt i
  unfold onElements
  split
  · split_ifs
    · exact hy
    · exact hx
  · exact hx.merge

theorem UnaryFn.ofType_onElement (f : UnaryFn) {dtype : DataType} {e : SymElement}
    (h : e.OfType dtype) : (f.onElement e).OfType dtype := by
  cases dtype with
  | float => rcases h.cases_float with rfl | ⟨bits, rfl⟩ <;> trivial
  | int => rcases h.cases_int with rfl | ⟨name, rfl⟩ | ⟨n, rfl⟩ <;> trivial

theorem UnaryFn.tellsRegular (f : UnaryFn) (h : sym.Regular) : TellsRegular (f.infer sym) := by
  refine always_bind fun x hx => tellsRegular_single ?_
  split_ifs with hfolds
  · have hresult : f.resultType x.dtype = x.dtype := by
      cases f <;> first | rfl | simp [folds] at hfolds
    rw [hresult]
    exact (h.demand hx).mapElements fun e => f.ofType_onElement
  · exact regular_ofShape _ _

theorem Cast.ofType_onElement (wanted : DataType) (e : SymElement) :
    (onElement wanted e).OfType wanted := by
  cases e <;> cases wanted <;> trivial

theorem Cast.tellsRegular (wanted : DataType) (h : sym.Regular) :
    TellsRegular (Cast.infer wanted sym) :=
  always_bind fun _ hx => tellsRegular_single ((h.demand hx).mapElements fun e _ =>
    ofType_onElement wanted e)

theorem Cast.tellsRegular_like (h : sym.Regular) : TellsRegular (Cast.inferLike sym) :=
  always_bind fun _ hx => always_bind fun _ _ => tellsRegular_single
    ((h.demand hx).mapElements fun e _ => ofType_onElement _ e)

theorem ConstantOfShape.tellsRegular (op : ConstantOfShape) (sym : SymInputs) :
    TellsRegular (op.infer sym) := by
  refine always_bind fun _ _ => always_bind fun _ _ => always_bind fun s _ => ?_
  refine always_bind fun _ _ => tellsRegular_single ?_
  refine (regular_ofShape _ s).mapElements fun _ _ => ?_
  cases op.value <;> trivial

namespace Range

theorem ofType_intElements (delta : Int64) (count : Nat) (start : Option Int64) :
    ∀ e ∈ intElements delta count start, e.OfType .int := by
  induction count generalizing start with
  | zero => cases start <;> simp [intElements]
  | succ count ih =>
    cases start <;> simp only [intElements, List.mem_cons, forall_eq_or_imp]
    · exact ⟨trivial, ih _⟩
    · exact ⟨trivial, ih _⟩

theorem ofType_floatElements (delta : Float32) (count : Nat) (start : Float32) :
    ∀ e ∈ floatElements delta count start, e.OfType .float := by
  induction count generalizing start with
  | zero => simp [floatElements]
  | succ count ih =>
    simp only [floatElements, List.mem_cons, forall_eq_or_imp]
    exact ⟨ofType_ofFloat start, ih _⟩

theorem regular_sequence {dtype : DataType} {length : Nat} {elements : Nat → List SymElement}
    (hlength : ∀ n, (elements n).length = n) (htyped : ∀ n, ∀ e ∈ elements n, e.OfType dtype) :
    (sequence dtype length elements).Regular :=
  (regular_ofShape dtype _).map (fun es _ => hlength es.length) fun es _ => htyped es.length

theorem tellsRegular (h : sym.Regular) : TellsRegular (Range.infer sym) := by
  rw [infer_eq]
  refine always_bind fun start hstart => always_bind fun _ _ => always_bind fun _ _ => ?_
  refine always_bind fun _ _ => always_bind fun _ _ => always_bind fun _ _ => ?_
  refine always_bind fun _ _ => ?_
  have htype := fun e => (h.demand hstart).single? (e := e)
  unfold result
  split
  · next m n d hm _ _ =>
    rw [(htype _ hm).eq_int]
    exact always_bind fun length _ => tellsRegular_single (regular_sequence
      (fun n => length_intElements _ n _) fun n => ofType_intElements _ n _)
  · next m n d hm _ _ =>
    rw [(htype _ hm).eq_float]
    exact always_bind fun length _ => tellsRegular_single (regular_sequence
      (fun n => length_floatElements _ n _) fun n => ofType_floatElements _ n _)
  · exact always_bind fun _ _ => tellsRegular_ofShape _ _

end Range

theorem Reduce.tellsRegular (op : Reduce) (h : sym.Regular) : TellsRegular (op.infer sym) := by
  refine always_bind fun x hx => ?_
  dsimp only
  generalize op.selectAxes ((Inputs.find? sym 1).map (·.ints?)) = axes
  split_ifs with hkeep hfolds
  · exact tellsRegular_single (h.demand hx)
  · refine always_bind fun s _ => ?_
    have htype : x.dtype = .int := by simp at hfolds; tauto
    cases x.ints? with
    | none => exact tellsRegular_ofShape _ _
    | some ns => exact tellsRegular_single ((regular_ofShape _ s).set 0 (htype ▸ ofType_int _))
  · exact always_bind fun _ _ => tellsRegular_ofShape _ _

theorem ShapeOf.tellsRegular (op : ShapeOf) (sym : SymInputs)
    (hroom : ∀ t ∈ Inputs.given sym, t.shape.dims.length < sizeLimit) :
    TellsRegular (op.infer sym) := by
  refine always_bind fun x hx => ?_
  have hrank := hroom x (SymInputs.mem_given_of_demand hx)
  cases hs : x.shape with
  | unknown => exact tellsRegular_ofShape _ _
  | ranked ds =>
    refine tellsRegular_single (regular_ofSizes ?_)
    simp only [hs, SymShape.dims, SymShape.dims?, Option.getD_some] at hrank
    rw [List.length_drop, List.length_take]
    omega

theorem SizeOf.tellsRegular (sym : SymInputs) : TellsRegular (SizeOf.infer sym) :=
  always_bind fun _ _ => tellsRegular_single (regular_scalar (ofType_ofDim _))

theorem Expand.tellsRegular (h : sym.Regular) : TellsRegular (Expand.infer sym) := by
  refine always_bind fun x hx => always_bind fun _ _ => always_bind fun _ _ => ?_
  refine always_bind fun _ _ => always_bind fun s _ => tellsRegular_single ?_
  exact (regular_ofShape x.dtype s).fillFrom (h.demand hx).readAt

theorem Concat.tellsRegular (op : Concat) (h : sym.Regular) : TellsRegular (op.infer sym) := by
  refine always_bind fun first _ => always_bind fun _ htypes => always_bind fun s _ => ?_
  have hfresh := regular_ofShape first.dtype s
  split
  · next elements hlisted =>
    refine tellsRegular_single (hfresh.setLeading fun e he => ?_)
    obtain ⟨es, hes, he⟩ := List.mem_flatten.mp he
    have hmap := (Option.mapM_eq_some.mp hlisted).flip
    obtain ⟨i, hi⟩ := List.getElem?_of_mem hes
    obtain ⟨t, ht, htes⟩ := Related.get_left hmap hi
    have hmem := List.mem_of_getElem? ht
    have hsame : t.dtype = first.dtype := by
      by_contra hne
      exact refuseIf_eq_ok.mp htypes (List.any_eq_true.mpr ⟨t, hmem, by simpa using hne⟩)
    exact hsame ▸ (h t hmem).typed es htes e he
  · exact tellsRegular_single hfresh

namespace Gather

theorem regular_pick {x output u : SymTensor} (hx : x.Regular) (h : output.Regular)
    (htype : output.dtype = x.dtype) {es : List SymElement} (hes : x.elements = some es)
    {entry : SymElement × Nat} (hu : pick es output entry = .ok u) :
    u.Regular ∧ u.dtype = x.dtype := by
  unfold pick at hu
  split at hu
  · cases hu
    exact ⟨h, htype⟩
  · obtain ⟨k, -, hu⟩ := bind_eq_ok.mp hu
    cases hu
    have helement : (es.getD k .unknown).OfType output.dtype := by
      have hget := hx.get k
      rw [SymTensor.get, hes, Option.getD_some] at hget
      exact htype ▸ hget
    exact ⟨h.set entry.2 helement, htype⟩

theorem tellsRegular (op : Gather) (h : sym.Regular) : TellsRegular (op.infer sym) := by
  rw [infer_eq]
  refine always_bind fun x hx => always_bind fun t _ => always_bind fun _ _ => ?_
  split
  · next ds ids _ _ =>
    refine always_bind fun dim _ => ?_
    have hfresh := regular_ofShape x.dtype (.ranked (ds.take dim ++ ids ++ ds.drop (dim + 1)))
    split
    · next es entries hes _ =>
      split_ifs
      · refine always_bind fun u hu => tellsRegular_single ?_
        refine (foldlM_keeps (P := fun t => t.Regular ∧ t.dtype = x.dtype) ?_ ⟨hfresh, rfl⟩ hu).1
        intro a b entry _ ha hb
        exact regular_pick (h.demand hx) ha.1 ha.2 hes hb
      · exact tellsRegular_single hfresh
    · exact tellsRegular_single hfresh
  · exact tellsRegular_unranked _

end Gather

namespace Split

theorem regular_piece {x : SymTensor} (hx : x.Regular) (ds : List SymDim) (dim : Nat)
    (start : Option Nat) (size : SymDim) : (piece x ds dim start size).Regular := by
  have hfresh := regular_ofShape x.dtype (.ranked (ds.set dim size))
  unfold piece
  dsimp only
  split
  · split_ifs
    · refine hfresh.map (fun es _ => by simp) fun es hes e he => ?_
      obtain ⟨⟨old, i⟩, hmem, rfl⟩ := List.mem_map.mp he
      dsimp only
      split_ifs
      · exact hx.get _
      · exact hfresh.typed es hes old (List.fst_mem_of_mem_zipIdx hmem)
    · exact hfresh
  · exact hfresh

theorem tellsRegular_pieces {x : SymTensor} (hx : x.Regular) (ds : List SymDim) (dim : Nat)
    (start : Option Nat) (sizes : List SymDim) : TellsRegular (pieces x ds dim start sizes) := by
  induction sizes generalizing start with
  | nil => exact always_ok fun t ht => by cases ht
  | cons size sizes ih =>
    rw [pieces_cons]
    refine always_bind fun next _ => always_bind fun ts hts => always_ok fun t ht => ?_
    rcases List.mem_cons.mp ht with rfl | ht
    · exact regular_piece hx ds dim start size
    · exact ih next ts hts t ht

theorem tellsRegular (op : Split) (h : sym.Regular) : TellsRegular (op.infer sym) := by
  refine always_bind fun x hx => always_bind fun _ _ => ?_
  cases x.shape with
  | unknown =>
    refine always_bind fun _ _ => always_ok fun t ht => ?_
    rw [List.eq_of_mem_replicate ht]
    exact regular_unranked x.dtype
  | ranked ds =>
    exact always_bind fun _ _ => always_bind fun _ _ => tellsRegular_pieces (h.demand hx) _ _ _ _

end Split

namespace Slice

/-- A slice keeps its elements unknown or reads all of them from the sliced vector. -/
theorem exists_cutElements {x output w : SymTensor} {ds : List SymDim} {cuts : List Cut}
    (h : cutElements x ds cuts output = .ok w) :
    w = output ∨ ∃ positions : List Nat, w = output.setLeading (positions.map x.get) := by
  unfold cutElements at h
  split at h
  · cases hlast : cuts.getLast? with
    | none =>
      simp only [hlast, ok_bind] at h
      obtain ⟨positions, -, h⟩ := bind_eq_ok.mp h
      exact .inr ⟨positions, (ok.inj h).symm⟩
    | some c =>
      simp only [hlast] at h
      obtain ⟨range, -, h⟩ := bind_eq_ok.mp h
      cases range with
      | none => exact .inl (ok.inj h).symm
      | some r =>
        obtain ⟨positions, -, h⟩ := bind_eq_ok.mp h
        exact .inr ⟨positions, (ok.inj h).symm⟩
  · exact .inl (ok.inj h).symm

theorem tellsRegular_cutAlong {x : SymTensor} (hx : x.Regular) (ds : List SymDim)
    (starts stops : List (Option Int64)) (steps : Option (Option (List (Option Int64))))
    (dims : Option (List Nat)) : TellsRegular (cutAlong x ds starts stops steps dims) := by
  cases dims with
  | none => exact tellsRegular_ofShape _ _
  | some dims =>
    refine always_bind fun _ _ => always_bind fun _ _ => always_bind fun es _ => ?_
    refine always_bind fun w hw => tellsRegular_single ?_
    have hfresh := regular_ofShape x.dtype (.ranked es)
    rcases exists_cutElements hw with rfl | ⟨positions, rfl⟩
    · exact hfresh
    · refine hfresh.setLeading fun e he => ?_
      obtain ⟨i, -, rfl⟩ := List.mem_map.mp he
      exact hx.get i

theorem tellsRegular (h : sym.Regular) : TellsRegular (Slice.infer sym) := by
  rw [infer_eq]
  refine always_bind fun x hx => always_bind fun _ _ => always_bind fun starts _ => ?_
  refine always_bind fun _ _ => always_bind fun stops _ => ?_
  refine always_bind fun axes _ => always_bind fun steps _ => ?_
  unfold result
  split
  · exact tellsRegular_unranked _
  · exact always_bind fun _ _ => always_bind fun _ _ =>
      tellsRegular_cutAlong (h.demand hx) _ _ _ _ _
  · exact tellsRegular_ofShape _ _

end Slice

/-- The rule of an operator tells only of regular tensors if its inputs are regular and their sizes
can be counted. -/
theorem Operator.tellsRegular (op : Operator) (h : sym.Regular)
    (hroom : ∀ t ∈ Inputs.given sym, t.shape.dims.length < sizeLimit) :
    TellsRegular (op.infer sym) := by
  cases op with
  | argReduce op => exact op.tellsRegular sym
  | batchNormalization _ => exact BatchNormalization.tellsRegular sym
  | binary f => exact f.tellsRegular h
  | cast wanted => exact Cast.tellsRegular wanted h
  | castLike => exact Cast.tellsRegular_like h
  | clip => exact Clip.tellsRegular sym
  | compress op => exact op.tellsRegular sym
  | concat op => exact op.tellsRegular h
  | constantOfShape op => exact op.tellsRegular sym
  | conv op => exact op.tellsRegular sym
  | convTranspose op => exact op.tellsRegular sym
  | cumSum _ => exact CumSum.tellsRegular sym
  | depthToSpace op => exact op.tellsRegular sym
  | expand => exact Expand.tellsRegular h
  | eyeLike op => exact op.tellsRegular sym
  | flatten op => exact op.tellsRegular h
  | gather op => exact op.tellsRegular h
  | gatherElements op => exact op.tellsRegular sym
  | gatherND op => exact op.tellsRegular sym
  | gemm op => exact op.tellsRegular sym
  | globalPool _ => exact GlobalPool.tellsRegular sym
  | identity => exact Reshaping.tellsRegular h
  | instanceNormalization _ => exact InstanceNormalization.tellsRegular sym
  | layerNormalization op => exact op.tellsRegular sym
  | lrn op => exact op.tellsRegular sym
  | matMul => exact MatMul.tellsRegular sym
  | nonZero => exact NonZero.tellsRegular sym
  | oneHot op => exact op.tellsRegular sym
  | pad op => exact op.tellsRegular sym
  | pool op => exact op.tellsRegular sym
  | random op => exact op.tellsRegular sym
  | range => exact Range.tellsRegular h
  | reduce op => exact op.tellsRegular h
  | reshape op => exact op.tellsRegular h
  | resize _ => exact Resize.tellsRegular sym
  | scatterElements op => exact op.tellsRegular sym
  | scatterND _ => exact ScatterND.tellsRegular sym
  | shapeOf op => exact op.tellsRegular sym hroom
  | sizeOf => exact SizeOf.tellsRegular sym
  | slice => exact Slice.tellsRegular h
  | softmax op => exact op.tellsRegular sym
  | spaceToDepth op => exact op.tellsRegular sym
  | split op => exact op.tellsRegular h
  | squeeze => exact Squeeze.tellsRegular h
  | tile => exact Tile.tellsRegular sym
  | topK op => exact op.tellsRegular sym
  | transpose op => exact op.tellsRegular h
  | trilu _ => exact Trilu.tellsRegular sym
  | unary f => exact f.tellsRegular h
  | unsqueeze => exact Unsqueeze.tellsRegular h
  | variadic f => exact f.tellsRegular h
  | select => exact Where.tellsRegular h

end TensorGraph
