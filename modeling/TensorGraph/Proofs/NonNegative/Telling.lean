import TensorGraph.Proofs.Bits
import TensorGraph.Proofs.Kernels.Reading
import TensorGraph.Proofs.NonNegative.Shapes
import TensorGraph.Proofs.Tracking.Rules

/-! Rules that tell only of shapes without negative sizes: those that keep the shapes they are
given, or leave out, take, pick and join dimensions of them. Rules that keep a shape, and rules
that read shapes together. -/

namespace TensorGraph

open Outcome SymShape SymDim

variable {sym : SymInputs} {x : Outcome RuleError (List SymTensor)}

abbrev TellsNonNegative (x : Outcome RuleError (List SymTensor)) : Prop :=
  Always (fun ts => ∀ t ∈ ts, t.shape.NonNegative) x

theorem tellsNonNegative_single {t : SymTensor} (h : t.shape.NonNegative) :
    TellsNonNegative (.ok [t]) :=
  always_ok fun _ ht => List.mem_singleton.mp ht ▸ h

theorem tellsNonNegative_unranked (dtype : DataType) : TellsNonNegative (.ok [.unranked dtype]) :=
  tellsNonNegative_single SymShape.nonNegative_unknown

theorem tellsNonNegative_reshaped {t : SymTensor} {s : SymShape} (h : s.NonNegative) :
    TellsNonNegative (.ok [t.reshaped s]) :=
  tellsNonNegative_single (by rwa [SymTensor.shape_reshaped])

def SymInputs.NonNegative (sym : SymInputs) : Prop :=
  ∀ t ∈ Inputs.given sym, t.shape.NonNegative

theorem SymInputs.NonNegative.demand (h : sym.NonNegative) {i : Nat} {t : SymTensor}
    (ht : sym.demand i = .ok t) : t.shape.NonNegative :=
  h t (mem_given_of_demand ht)

namespace SymTensor

variable {t : SymTensor} {s : SymShape}

def ListsSizes (t : SymTensor) : Prop :=
  ∀ es, t.elements = some es → ∀ n, SymElement.int n ∈ es → 0 ≤ n.toInt

def ListsUnsigned (t : SymTensor) : Prop :=
  ∀ es, t.elements = some es → ∀ bits, SymElement.float bits ∈ es →
    Binary32.isNegative (.ofBits bits) = false

theorem ListsSizes.toSizes (h : t.ListsSizes)
    (hs : (t.toSizes : Outcome RuleError SymShape) = .ok s) :
    s.NonNegative := by
  unfold SymTensor.toSizes at hs
  split at hs
  · next es hes =>
    obtain ⟨_, -, hs⟩ := bind_eq_ok.mp hs
    cases hs
    intro d hd
    obtain ⟨e, he, rfl⟩ := List.mem_map.mp hd
    cases e with
    | int n => exact nonNegative_size.mpr (h es hes n he)
    | param name => exact nonNegative_param name
    | unknown | float _ => exact SymDim.nonNegative_unknown
  · split at hs
    · split_ifs at hs
      · obtain ⟨_, -, hs⟩ := bind_eq_ok.mp hs
        cases hs
        exact nonNegative_ofRank _
      · cases hs
        exact SymShape.nonNegative_unknown
    · cases hs
      exact SymShape.nonNegative_unknown

theorem nonNegative_broadcast {ts : List SymTensor} {dtype : DataType}
    (h : ∀ t ∈ ts, t.shape.NonNegative) (ht : SymTensor.broadcast ts dtype = .ok t) :
    t.shape.NonNegative := by
  obtain ⟨s, hs, ht⟩ := bind_eq_ok.mp ht
  cases ht
  change s.NonNegative
  refine SymShape.nonNegative_broadcast (fun s hmem => ?_) hs
  obtain ⟨t, ht, rfl⟩ := List.mem_map.mp hmem
  exact h t ht

end SymTensor

section Same

open Normalization

theorem Reshaping.tellsNonNegative (h : sym.NonNegative) :
    TellsNonNegative (Reshaping.inferIdentity sym) :=
  always_bind fun _ hx => tellsNonNegative_single (h.demand hx)

theorem Cast.tellsNonNegative (wanted : DataType) (h : sym.NonNegative) :
    TellsNonNegative (Cast.infer wanted sym) := by
  refine always_bind fun x hx => ?_
  have hx := h.demand hx
  exact tellsNonNegative_single hx

theorem Cast.tellsNonNegative_like (h : sym.NonNegative) :
    TellsNonNegative (Cast.inferLike sym) := by
  refine always_bind fun x hx => always_bind fun _ _ => ?_
  have hx := h.demand hx
  exact tellsNonNegative_single hx

theorem Clip.tellsNonNegative (h : sym.NonNegative) : TellsNonNegative (Clip.infer sym) := by
  refine always_bind fun x hx => always_bind fun _ _ => ?_
  have hx := h.demand hx
  exact tellsNonNegative_single hx

theorem UnaryFn.tellsNonNegative (f : UnaryFn) (h : sym.NonNegative) :
    TellsNonNegative (f.infer sym) := by
  refine always_bind fun x hx => tellsNonNegative_single ?_
  have hx := h.demand hx
  split_ifs <;> exact hx

theorem CumSum.tellsNonNegative (h : sym.NonNegative) : TellsNonNegative (CumSum.infer sym) := by
  refine always_bind fun x hx => always_bind fun t _ => ?_
  have hx := h.demand hx
  split
  · exact always_bind fun _ _ => tellsNonNegative_single hx
  · exact tellsNonNegative_single hx

theorem Trilu.tellsNonNegative (h : sym.NonNegative) : TellsNonNegative (Trilu.infer sym) := by
  refine always_bind fun x hx => always_bind fun _ _ => always_bind fun _ _ => ?_
  have hx := h.demand hx
  exact tellsNonNegative_single hx

theorem EyeLike.tellsNonNegative (op : EyeLike) (h : sym.NonNegative) :
    TellsNonNegative (op.infer sym) :=
  always_bind fun _ hx => always_bind fun _ hs =>
    tellsNonNegative_single ((h.demand hx).declareRank hs)

theorem Normalization.nonNegative_demandFloat {x : SymTensor} (h : x.shape.NonNegative)
    (least : Nat) : Always (fun y => y.shape.NonNegative) (demandFloat x least) :=
  always_bind fun _ _ => always_bind fun _ _ => always_ok h

theorem BatchNormalization.tellsNonNegative (h : sym.NonNegative) :
    TellsNonNegative (BatchNormalization.infer sym) := by
  rw [infer_eq]
  refine always_bind fun x hx => always_bind fun _ _ => always_bind fun _ _ => ?_
  refine always_bind fun _ _ => always_bind fun _ _ => always_bind fun y hy => ?_
  exact tellsNonNegative_single (nonNegative_demandFloat (h.demand hx) 2 y hy)

theorem InstanceNormalization.tellsNonNegative (h : sym.NonNegative) :
    TellsNonNegative (InstanceNormalization.infer sym) := by
  refine always_bind fun x hx => always_bind fun _ _ => always_bind fun _ _ => ?_
  refine always_bind fun _ _ => always_bind fun _ _ => always_bind fun y hy => ?_
  exact tellsNonNegative_single (nonNegative_demandFloat (h.demand hx) 3 y hy)

theorem Lrn.tellsNonNegative (op : Lrn) (h : sym.NonNegative) : TellsNonNegative (op.infer sym) :=
  always_bind fun _ hx => always_bind fun _ _ => always_bind fun y hy =>
    tellsNonNegative_single (nonNegative_demandFloat (h.demand hx) 2 y hy)

theorem LayerNormalization.tellsNonNegative (op : LayerNormalization) (h : sym.NonNegative) :
    TellsNonNegative (op.infer sym) := by
  rw [infer_eq]
  refine always_bind fun x hx => always_bind fun _ _ => always_bind fun y hy => ?_
  exact always_bind fun _ _ =>
    tellsNonNegative_single (nonNegative_demandFloat (h.demand hx) 1 y hy)

theorem Softmax.tellsNonNegative (op : Softmax) (h : sym.NonNegative) :
    TellsNonNegative (op.infer sym) := by
  rw [infer_eq]
  refine always_bind fun x hx => always_bind fun y hy => ?_
  exact always_bind fun _ _ =>
    tellsNonNegative_single (nonNegative_demandFloat (h.demand hx) 1 y hy)

theorem Scatter.nonNegative_output {x : SymTensor} (h : x.shape.NonNegative) (updates : SymTensor) :
    Always (fun y => y.shape.NonNegative) (Scatter.output x updates) :=
  always_bind fun _ _ => always_ok h

theorem ScatterElements.tellsNonNegative (op : ScatterElements) (h : sym.NonNegative) :
    TellsNonNegative (op.infer sym) := by
  rw [infer_eq]
  refine always_bind fun x hx => always_bind fun _ _ => always_bind fun u _ => ?_
  refine always_bind fun _ _ => always_bind fun _ _ => always_bind fun _ _ => ?_
  exact always_bind fun y hy =>
    tellsNonNegative_single (Scatter.nonNegative_output (h.demand hx) u y hy)

theorem ScatterND.tellsNonNegative (h : sym.NonNegative) :
    TellsNonNegative (ScatterND.infer sym) := by
  refine always_bind fun x hx => always_bind fun _ _ => always_bind fun u _ => ?_
  refine always_bind fun _ _ => always_bind fun _ _ => ?_
  exact always_bind fun y hy =>
    tellsNonNegative_single (Scatter.nonNegative_output (h.demand hx) u y hy)

theorem GatherElements.tellsNonNegative (op : GatherElements) (h : sym.NonNegative) :
    TellsNonNegative (op.infer sym) := by
  rw [infer_eq]
  refine always_bind fun _ _ => always_bind fun t ht => always_bind fun _ _ => ?_
  have ht := h.demand ht
  exact always_bind fun _ _ => tellsNonNegative_single ht

theorem BinaryFn.tellsNonNegative (f : BinaryFn) (h : sym.NonNegative) :
    TellsNonNegative (f.infer sym) := by
  refine always_bind fun a ha => always_bind fun b hb => always_bind fun _ _ => ?_
  refine always_bind fun y hy => tellsNonNegative_single ?_
  have hy : y.shape.NonNegative :=
    SymTensor.nonNegative_broadcast (by simp [h.demand ha, h.demand hb]) hy
  split_ifs
  · rwa [SymTensor.shape_fillFrom]
  · exact hy

theorem VariadicFn.tellsNonNegative (f : VariadicFn) (h : sym.NonNegative) :
    TellsNonNegative (f.infer sym) := by
  refine always_bind fun _ _ => always_bind fun _ _ => always_bind fun y hy => ?_
  have hy : y.shape.NonNegative := SymTensor.nonNegative_broadcast h hy
  refine tellsNonNegative_single ?_
  split_ifs
  · rwa [SymTensor.shape_fillFrom]
  · exact hy

theorem Where.tellsNonNegative (h : sym.NonNegative) : TellsNonNegative (Where.infer sym) := by
  refine always_bind fun c hc => always_bind fun a ha => always_bind fun b hb => ?_
  refine always_bind fun _ _ => always_bind fun _ _ => always_bind fun y hy => ?_
  have hy : y.shape.NonNegative :=
    SymTensor.nonNegative_broadcast (by simp [h.demand hc, h.demand ha, h.demand hb]) hy
  exact tellsNonNegative_single (by rwa [SymTensor.shape_fillFrom])

end Same

section Along

theorem ArgReduce.tellsNonNegative (op : ArgReduce) (h : sym.NonNegative) :
    TellsNonNegative (op.infer sym) := by
  rw [infer_eq]
  refine always_bind fun x hx => always_bind fun _ _ => always_bind fun s hs => ?_
  exact tellsNonNegative_single ((h.demand hx).reduce hs)

theorem Reduce.nonNegative_outputShape (op : Reduce) {x : SymTensor} {axes : Axes} {s : SymShape}
    (hx : x.shape.NonNegative) (h : op.outputShape x axes = .ok s) : s.NonNegative := by
  unfold outputShape at h
  split at h
  · split at h
    · cases h
      split_ifs
      · exact nonNegative_ofRank _
      · exact SymShape.nonNegative_unknown
    · cases h
      exact SymShape.nonNegative_unknown
  · cases h
    exact hx
  · exact hx.reduce h
  · exact hx.reduce h

theorem Reduce.tellsNonNegative (op : Reduce) (h : sym.NonNegative) :
    TellsNonNegative (op.infer sym) := by
  refine always_bind fun x hx => ?_
  have hx := h.demand hx
  dsimp only
  generalize op.selectAxes ((Inputs.find? sym 1).map (·.ints?)) = axes
  split_ifs
  · exact tellsNonNegative_single hx
  · refine always_bind fun s hs => ?_
    have hs := op.nonNegative_outputShape hx hs
    cases x.ints? <;> exact tellsNonNegative_single hs
  · refine always_bind fun s hs => ?_
    exact tellsNonNegative_single (op.nonNegative_outputShape hx hs)

theorem TopK.nonNegative_takenDim {k : SymTensor} {d : SymDim} (h : takenDim k = .ok d) :
    d.NonNegative := by
  unfold takenDim at h
  split at h
  · split_ifs at h with hsize
    cases h
    rw [Int64.lt_iff_toInt_lt, Int64.toInt_zero] at hsize
    rw [nonNegative_size]
    omega
  · cases h
  · cases h
    exact SymDim.nonNegative_unknown

theorem TopK.tellsNonNegative (op : TopK) (h : sym.NonNegative) :
    TellsNonNegative (op.infer sym) := by
  refine always_bind fun x hx => always_bind fun _ _ => always_bind fun taken htaken => ?_
  refine always_bind fun s hs => always_ok fun t ht => ?_
  have hs : s.NonNegative := by
    rw [outputShape_eq] at hs
    cases hr : x.shape.rank? with
    | none =>
      rw [hr] at hs
      cases hs
      exact h.demand hx
    | some rank =>
      rw [hr] at hs
      obtain ⟨dim, -, hs⟩ := bind_eq_ok.mp hs
      obtain ⟨_, -, hs⟩ := bind_eq_ok.mp hs
      cases hs
      exact (h.demand hx).setDim dim (nonNegative_takenDim htaken)
  rcases List.mem_pair.mp ht with rfl | rfl <;> exact hs

theorem Compress.tellsNonNegative (op : Compress) (h : sym.NonNegative) :
    TellsNonNegative (op.infer sym) := by
  refine always_bind fun x hx => always_bind fun _ _ => always_bind fun _ _ => ?_
  have hx := h.demand hx
  refine always_bind fun _ _ => ?_
  split
  · exact tellsNonNegative_single (nonNegative_ofRank 1)
  · next axis ds _ hs =>
    rw [hs] at hx
    refine always_bind fun dim _ => ?_
    exact tellsNonNegative_single (hx.setDim dim SymDim.nonNegative_unknown)
  · exact tellsNonNegative_unranked _

theorem Gather.tellsNonNegative (op : Gather) (h : sym.NonNegative) :
    TellsNonNegative (op.infer sym) := by
  rw [infer_eq]
  refine always_bind fun x hx => always_bind fun t ht => always_bind fun _ _ => ?_
  have hx := h.demand hx
  have ht := h.demand ht
  split
  · next ds ids hs hids =>
    rw [hs] at hx
    rw [hids] at ht
    intro ts hts
    obtain ⟨dim, w, -, rfl, -, hw⟩ := result_ok hts
    intro u hu
    rw [List.mem_singleton.mp hu, hw]
    intro d hd
    rcases List.mem_append.mp hd with hd | hd
    · rcases List.mem_append.mp hd with hd | hd
      · exact hx d (List.mem_of_mem_take hd)
      · exact ht d hd
    · exact hx d (List.mem_of_mem_drop hd)
  · exact tellsNonNegative_unranked _

theorem GatherND.tellsNonNegative (op : GatherND) (h : sym.NonNegative) :
    TellsNonNegative (op.infer sym) := by
  rw [infer_eq]
  refine always_bind fun x hx => always_bind fun t ht => always_bind fun _ _ => ?_
  have hx := h.demand hx
  have ht := h.demand ht
  split
  · next ds ids hs hids =>
    rw [hs] at hx
    rw [hids] at ht
    refine always_bind fun _ _ => always_bind fun _ _ => ?_
    split
    · exact tellsNonNegative_unranked _
    · refine always_bind fun taken _ => always_bind fun _ _ => ?_
      refine tellsNonNegative_single fun d hd => ?_
      rcases List.mem_append.mp hd with hd | hd
      · exact ht d (List.dropLast_subset ids hd)
      · exact hx d (List.mem_of_mem_drop hd)
  · exact tellsNonNegative_unranked _

end Along

section Product

theorem MatMul.nonNegative_splitLeft {ds : List SymDim} (h : ∀ d ∈ ds, d.NonNegative) :
    (∀ d ∈ (splitLeft ds).1, d.NonNegative) ∧ ∀ d ∈ (splitLeft ds).2.1, d.NonNegative := by
  unfold splitLeft
  split
  · exact ⟨by simp, by simp⟩
  · exact ⟨fun d hd => h d (List.mem_of_mem_take hd), fun d hd =>
      h d (List.mem_of_mem_drop (List.mem_of_mem_take hd))⟩

theorem MatMul.nonNegative_splitRight {ds : List SymDim} (h : ∀ d ∈ ds, d.NonNegative) :
    (∀ d ∈ (splitRight ds).1, d.NonNegative) ∧ ∀ d ∈ (splitRight ds).2.1, d.NonNegative := by
  unfold splitRight
  split
  · exact ⟨by simp, by simp⟩
  · exact ⟨fun d hd => h d (List.mem_of_mem_take hd), fun d hd => h d (List.mem_of_mem_drop hd)⟩

theorem MatMul.tellsNonNegative (h : sym.NonNegative) : TellsNonNegative (MatMul.infer sym) := by
  refine always_bind fun a ha => always_bind fun b hb => always_bind fun _ _ => ?_
  have ha := h.demand ha
  have hb := h.demand hb
  cases hs : a.shape with
  | unknown => exact tellsNonNegative_unranked _
  | ranked left =>
    cases ht : b.shape with
    | unknown => exact tellsNonNegative_unranked _
    | ranked right =>
      rw [hs] at ha
      rw [ht] at hb
      obtain ⟨hbatchA, hrows⟩ := nonNegative_splitLeft ha
      obtain ⟨hbatchB, hcolumns⟩ := nonNegative_splitRight hb
      refine always_bind fun _ _ => always_bind fun _ _ => always_bind fun batch hbatch => ?_
      have hbatch : batch.NonNegative := by
        refine SymShape.nonNegative_broadcast ?_ hbatch
        rw [List.forall_mem_cons, List.forall_mem_singleton]
        exact ⟨hbatchA, hbatchB⟩
      refine tellsNonNegative_single fun d hd => ?_
      rcases List.mem_append.mp hd with hd | hd
      · rcases List.mem_append.mp hd with hd | hd
        · exact hbatch d hd
        · exact hrows d hd
      · exact hcolumns d hd

theorem Gemm.nonNegative_matrixDims {t : SymTensor} {transposed : Bool} {p : SymDim × SymDim}
    (ht : t.shape.NonNegative) (h : matrixDims t transposed = .ok p) :
    p.1.NonNegative ∧ p.2.NonNegative := by
  obtain ⟨s, hs, h⟩ := bind_eq_ok.mp h
  have hs := ht.declareRank hs
  cases h
  split_ifs
  · exact ⟨hs.dim 1, hs.dim 0⟩
  · exact ⟨hs.dim 0, hs.dim 1⟩

theorem Gemm.tellsNonNegative (op : Gemm) (h : sym.NonNegative) :
    TellsNonNegative (op.infer sym) := by
  refine always_bind fun a ha => always_bind fun b hb => always_bind fun _ _ => ?_
  refine always_bind fun p hp => always_bind fun q hq => always_bind fun _ _ => ?_
  have hrows := (nonNegative_matrixDims (h.demand ha) hp).1
  have hcolumns := (nonNegative_matrixDims (h.demand hb) hq).2
  have hproduct : SymShape.NonNegative (.ranked [p.1, q.2]) := by
    intro d hd
    rcases List.mem_pair.mp hd with rfl | rfl
    · exact hrows
    · exact hcolumns
  cases hc : Inputs.find? sym 2 with
  | none => exact tellsNonNegative_single hproduct
  | some c =>
    have haddend := h c (SymInputs.mem_given_of_find? hc)
    refine always_bind fun _ _ => always_bind fun common hcommon => always_bind fun s hs => ?_
    have hcommon : common.NonNegative :=
      SymShape.nonNegative_broadcast (by simp [haddend, hproduct]) hcommon
    exact tellsNonNegative_single (hproduct.refine hcommon hs)

end Product

end TensorGraph
