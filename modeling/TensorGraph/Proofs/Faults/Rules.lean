import TensorGraph.Proofs.Concrete.Rules
import TensorGraph.Proofs.Faults.Counting

/-! Shape rules do not fault on tensors of which the known sizes are moderate, whatever their
attributes are. -/

namespace TensorGraph

section

open Outcome

/-- `2 ^ 57`, which is far above what is stored of tensors and far below what 64 bits hold. -/
def moderateLimit : Nat := 144115188075855872

def SymDim.Moderate (d : SymDim) : Prop := ∀ n ∈ d.value?, 0 ≤ n.toInt ∧ n.toInt ≤ moderateLimit

instance (d : SymDim) : Decidable d.Moderate := Option.decidableForallMem d.value?

/-- An integer, if it is known, lies between the negative of a bound and the bound. -/
def Bounded (bound : Nat) (n : Option Int64) : Prop := ∀ m ∈ n, m.toInt.natAbs ≤ bound

instance (bound : Nat) (n : Option Int64) : Decidable (Bounded bound n) :=
    Option.decidableForallMem n

/-- What is known of a tensor is moderate: its rank, its sizes, and the number of its elements. -/
structure SymTensor.Moderate (t : SymTensor) : Prop where
  rank : t.shape.dims.length ≤ moderateLimit
  sizes : ∀ d ∈ t.shape.dims, d.Moderate
  elements : ∀ es ∈ t.elements, es.length ≤ moderateLimit

instance (t : SymTensor) : Decidable t.Moderate :=
  decidable_of_iff (t.shape.dims.length ≤ moderateLimit ∧ (∀ d ∈ t.shape.dims, d.Moderate) ∧
    ∀ es ∈ t.elements, es.length ≤ moderateLimit)
    ⟨fun ⟨rank, sizes, elements⟩ => ⟨rank, sizes, elements⟩,
      fun ⟨rank, sizes, elements⟩ => ⟨rank, sizes, elements⟩⟩

def SymInputs.Moderate (sym : SymInputs) : Prop := ∀ t ∈ Inputs.given sym, t.Moderate

def SymInputs.Within (sym : SymInputs) (i bound : Nat) : Prop :=
  ∀ t ∈ Inputs.find? sym i, ∀ es ∈ t.elements, ∀ e ∈ es, Bounded bound e.int?

instance (sym : SymInputs) : Decidable sym.Moderate :=
  inferInstanceAs (Decidable (∀ t ∈ Inputs.given sym, t.Moderate))

instance (sym : SymInputs) (i bound : Nat) : Decidable (sym.Within i bound) :=
  inferInstanceAs (Decidable (∀ t ∈ Inputs.find? sym i, ∀ es ∈ t.elements, ∀ e ∈ es, _))

variable {ε α : Type} {sym : SymInputs} {t : SymTensor} {s : SymShape} {d : SymDim} {i : Nat}

theorem SymInputs.Moderate.find? (h : sym.Moderate) (ht : Inputs.find? sym i = some t) :
    t.Moderate := by
  rw [Inputs.find?, Option.join_eq_some_iff] at ht
  exact h t (List.mem_filterMap.mpr ⟨some t, List.mem_of_getElem? ht, rfl⟩)

theorem SymInputs.find?_of_demand (ht : sym.demand i = .ok t) : Inputs.find? sym i = some t :=
  orRefuse_eq_ok.mp ht

theorem SymInputs.Moderate.demand (h : sym.Moderate) (ht : sym.demand i = .ok t) : t.Moderate :=
  h.find? (SymInputs.find?_of_demand ht)

namespace SymTensor.Moderate

theorem rank_lt (h : t.Moderate) : t.shape.dims.length < intLimit :=
  h.rank.trans_lt (by decide)

theorem length_dims (h : t.Moderate) {ds : List SymDim} (hs : t.shape = .ranked ds) :
    ds.length < intLimit := by
  have := h.rank_lt
  rwa [hs] at this

theorem dim (h : t.Moderate) (k : Nat) : (t.shape.dim k).Moderate := by
  rw [SymShape.dim, List.getD_eq_getElem?_getD]
  cases hd : t.shape.dims[k]? with
  | none => rintro n ⟨⟩
  | some d => exact h.sizes d (List.mem_of_getElem? hd)

theorem getD (h : t.Moderate) {ds : List SymDim} (hs : t.shape = .ranked ds) (k : Nat) :
    (ds.getD k .unknown).Moderate := by
  have hdim := h.dim k
  rwa [hs] at hdim

end SymTensor.Moderate

theorem SymDim.value?_eq_some {n : Int64} : d.value? = some n ↔ d = .size n := by
  cases d <;> simp [value?]

theorem SymDim.noFault_refine (x y : SymDim) : (x.refine y).NoFault := by
  unfold refine
  split
  · split_ifs <;> simp
  · exact noFault_ok _
  · exact noFault_ok _
  · exact noFault_ok _
  · exact noFault_ok _
  · exact noFault_ok _

theorem SymDim.noFault_pad (d : SymDim) (start stop : Option Int64) :
    (d.pad start stop).NoFault := by
  unfold pad
  split
  · exact noFault_bind (noFault_orRefuse _ _) fun _ _ => noFault_bind (noFault_refuseIf _ _)
      fun _ _ => noFault_ok _
  · exact noFault_ok _

namespace SymShape

theorem noFault_refine (s t : SymShape) : (s.refine t).NoFault := by
  cases s with
  | unknown => exact noFault_ok _
  | ranked a =>
    cases t with
    | unknown => exact noFault_ok _
    | ranked b =>
      exact noFault_bind (noFault_refuseIf _ _) fun _ _ =>
        noFault_bind (noFault_mapM fun _ _ => SymDim.noFault_refine _ _) fun _ _ => noFault_ok _

theorem noFault_ofLargeRank {rank : Nat} (h : rank * SymDim.bytes < byteLimit) :
    (ofLargeRank rank : Outcome ε SymShape).NoFault :=
  noFault_of_eq_ok (ofLargeRank_eq_ok h)

theorem noFault_declareRank (s : SymShape) {rank : Nat} (h : rank * SymDim.bytes < byteLimit) :
    (s.declareRank rank).NoFault := by
  cases s with
  | unknown => exact noFault_ofLargeRank h
  | ranked ds =>
    simp only [declareRank]
    split_ifs <;> simp

theorem noFault_demandRank (s : SymShape) (least : Nat) : (s.demandRank least).NoFault :=
  noFault_refuseIf _ _

theorem noFault_pad (s : SymShape) (pads : List (Option Int64)) : (s.pad pads).NoFault := by
  cases s with
  | unknown => exact noFault_bind (noFault_refuseIf _ _) fun _ _ => noFault_ok _
  | ranked ds =>
    exact noFault_bind (noFault_refuseIf _ _) fun _ _ =>
      noFault_bind (noFault_mapM fun _ _ => SymDim.noFault_pad _ _ _) fun _ _ => noFault_ok _

theorem noFault_tile (s : SymShape) (repeats : List SymDim) : (s.tile repeats).NoFault := by
  refine noFault_bind (noFault_refuseIf _ _) fun _ _ => ?_
  cases s with
  | unknown => exact noFault_ok _
  | ranked ds => exact noFault_bind (noFault_refuseIf _ _) fun _ _ => noFault_ok _

end SymShape

namespace SymTensor.Moderate

variable {n : Nat}

theorem noFault_reduce (h : t.Moderate) (axes : Option (List Int64)) (keep : Bool) :
    (t.shape.reduce axes keep).NoFault := by
  cases hs : t.shape with
  | unknown => exact noFault_ok _
  | ranked ds =>
    cases axes with
    | none => exact noFault_ok _
    | some axes =>
      exact noFault_bind (Axis.noFault_resolveAll (h.length_dims hs) axes) fun _ _ => noFault_ok _

theorem room (h : n ≤ moderateLimit) : n * SymDim.bytes < byteLimit := by
  simp only [moderateLimit, SymDim.bytes, byteLimit] at h ⊢
  omega

/-- There is room for the shape of which a moderate tensor lists the sizes. -/
theorem noFault_toSizes (h : t.Moderate) : (t.toSizes : Outcome ε SymShape).NoFault := by
  unfold SymTensor.toSizes
  cases he : t.elements with
  | some es => exact noFault_bind (noFault_checkRoom (room (h.elements es he))) fun _ _ =>
      noFault_ok _
  | none =>
    dsimp only
    split
    · next n hs =>
      split_ifs with hn
      · have hsmall := (h.getD hs 0 n rfl).2
        refine SymShape.noFault_ofLargeRank (room ?_)
        rw [sizeOfInt_of_nonneg hn]
        omega
      · exact noFault_ok _
    · exact noFault_ok _

end SymTensor.Moderate

end

section

open Outcome SymInputs

variable {sym : SymInputs}

theorem Clip.noFault_infer (sym : SymInputs) : (Clip.infer sym).NoFault :=
  noFault_bind (sym.noFault_demand 0) fun _ _ => noFault_bind (noFault_refuseIf _ _)
    fun _ _ => noFault_ok _

theorem EyeLike.noFault_infer (op : EyeLike) (sym : SymInputs) : (op.infer sym).NoFault :=
  noFault_bind (sym.noFault_demand 0) fun x _ =>
    noFault_bind (x.shape.noFault_declareRank (by decide)) fun _ _ => noFault_ok _

theorem NonZero.noFault_infer (sym : SymInputs) : (NonZero.infer sym).NoFault :=
  noFault_bind (sym.noFault_demand 0) fun _ _ => noFault_ok _

theorem Sampling.noFault_infer (op : Sampling) (sym : SymInputs) : (op.infer sym).NoFault := by
  unfold infer
  split
  · exact noFault_ok _
  · exact noFault_bind (sym.noFault_demand 0) fun _ _ =>
      noFault_bind (noFault_refuseIf _ _) fun _ _ => noFault_ok _

theorem Trilu.noFault_infer (sym : SymInputs) : (Trilu.infer sym).NoFault :=
  noFault_bind (sym.noFault_demand 0) fun x _ =>
    noFault_bind (x.shape.noFault_demandRank 2) fun _ _ =>
      noFault_bind (noFault_refuseIf _ _) fun _ _ => noFault_ok _

theorem GlobalPool.noFault_infer (sym : SymInputs) : (GlobalPool.infer sym).NoFault := by
  refine noFault_bind (sym.noFault_demand 0) fun x _ => ?_
  refine noFault_bind (noFault_bind (noFault_refuseIf _ _) fun _ _ =>
    noFault_bind (x.shape.noFault_demandRank 3) fun _ _ => noFault_ok _) fun dims _ => ?_
  cases dims <;> exact noFault_ok _

namespace Normalization

theorem noFault_demandFloat (x : SymTensor) (least : Nat) : (demandFloat x least).NoFault :=
  noFault_bind (noFault_refuseIf _ _) fun _ _ =>
    noFault_bind (x.shape.noFault_demandRank least) fun _ _ => noFault_ok _

theorem noFault_demandVector (sym : SymInputs) (i : Nat) : (demandVector sym i).NoFault :=
  noFault_bind (sym.noFault_demand i) fun x _ =>
    noFault_bind (x.shape.noFault_declareRank (by decide)) fun _ _ => noFault_ok _

end Normalization

open Normalization

theorem BatchNormalization.noFault_infer (sym : SymInputs) :
    (BatchNormalization.infer sym).NoFault := by
  rw [infer_eq]
  refine noFault_bind (sym.noFault_demand 0) fun x _ => ?_
  refine noFault_bind (noFault_demandVector sym 1) fun _ _ => ?_
  refine noFault_bind (noFault_demandVector sym 2) fun _ _ => ?_
  refine noFault_bind (noFault_demandVector sym 3) fun _ _ => ?_
  refine noFault_bind (noFault_demandVector sym 4) fun _ _ => ?_
  exact noFault_bind (noFault_demandFloat x 2) fun _ _ => noFault_ok _

theorem InstanceNormalization.noFault_infer (sym : SymInputs) :
    (InstanceNormalization.infer sym).NoFault := by
  refine noFault_bind (sym.noFault_demand 0) fun x _ =>
      noFault_bind (sym.noFault_demand 1) fun s _ => ?_
  refine noFault_bind (s.shape.noFault_declareRank (by decide)) fun _ _ => ?_
  refine noFault_bind (sym.noFault_demand 2) fun b _ => ?_
  refine noFault_bind (b.shape.noFault_declareRank (by decide)) fun _ _ => ?_
  exact noFault_bind (noFault_demandFloat x 3) fun _ _ => noFault_ok _

theorem Lrn.noFault_infer (op : Lrn) (sym : SymInputs) : (op.infer sym).NoFault :=
  noFault_bind (sym.noFault_demand 0) fun x _ => noFault_bind (noFault_refuseIf _ _) fun _ _ =>
    noFault_bind (noFault_demandFloat x 2) fun _ _ => noFault_ok _

theorem MatMul.noFault_infer (sym : SymInputs) : (MatMul.infer sym).NoFault := by
  refine noFault_bind (sym.noFault_demand 0) fun a _ =>
      noFault_bind (sym.noFault_demand 1) fun b _ => ?_
  refine noFault_bind (noFault_refuseIf _ _) fun _ _ => ?_
  split
  · refine noFault_bind (noFault_refuseIf _ _) fun _ _ => ?_
    refine noFault_bind (SymDim.noFault_refine _ _) fun _ _ => ?_
    exact noFault_bind (SymShape.noFault_broadcast _) fun _ _ => noFault_ok _
  · exact noFault_ok _

theorem Gemm.noFault_infer (op : Gemm) (sym : SymInputs) : (op.infer sym).NoFault := by
  have hdims : ∀ (t : SymTensor) (transposed : Bool), (matrixDims t transposed).NoFault :=
    fun t _ => noFault_bind (t.shape.noFault_declareRank (by decide)) fun _ _ => noFault_ok _
  refine noFault_bind (sym.noFault_demand 0) fun a _ =>
      noFault_bind (sym.noFault_demand 1) fun b _ => ?_
  refine noFault_bind (noFault_refuseIf _ _) fun _ _ => noFault_bind (hdims a _) fun _ _ =>
    noFault_bind (hdims b _) fun _ _ => noFault_bind (SymDim.noFault_refine _ _) fun _ _ => ?_
  split
  · exact noFault_ok _
  · refine noFault_bind (noFault_refuseIf _ _) fun _ _ => ?_
    refine noFault_bind (SymShape.noFault_broadcast _) fun _ _ => ?_
    exact noFault_bind (SymShape.noFault_refine _ _) fun _ _ => noFault_ok _

theorem ScatterND.noFault_infer (sym : SymInputs) : (ScatterND.infer sym).NoFault := by
  have hshape : ∀ x indices updates : SymShape, (demandShape x indices updates).NoFault := by
    intro x indices updates
    unfold demandShape
    split
    · refine noFault_bind (noFault_refuseIf _ _) fun _ _ => ?_
      split
      · exact noFault_ok _
      · exact noFault_bind (noFault_refuseIf _ _) fun _ _ =>
          noFault_bind (SymShape.noFault_refine _ _) fun _ _ => noFault_ok _
    · exact noFault_ok _
  refine noFault_bind (sym.noFault_demand 0) fun x _ =>
      noFault_bind (sym.noFault_demand 1) fun t _ =>
    noFault_bind (sym.noFault_demand 2) fun u _ => noFault_bind (noFault_refuseIf _ _) fun _ _ => ?_
  refine noFault_bind (hshape _ _ _) fun _ _ => noFault_bind ?_ fun _ _ => noFault_ok _
  exact noFault_bind (noFault_refuseIf _ _) fun _ _ => noFault_ok _

theorem SymTensor.Moderate.rank?_lt {x : SymTensor} (h : x.Moderate) {rank : Nat}
    (hrank : x.rank? = some rank) : rank < intLimit := by
  obtain ⟨ds, hs, rfl⟩ : ∃ ds, x.shape = .ranked ds ∧ ds.length = rank := by
    unfold SymTensor.rank? at hrank
    cases hs : x.shape with
    | unknown => simp [hs] at hrank
    | ranked ds => exact ⟨ds, rfl, by simpa [hs] using hrank⟩
  exact h.length_dims hs

theorem ArgReduce.noFault_infer (op : ArgReduce) (h : sym.Moderate) : (op.infer sym).NoFault := by
  rw [infer_eq]
  refine noFault_bind (sym.noFault_demand 0) fun x hx => ?_
  have hmoderate := h.demand hx
  refine noFault_bind ?_ fun _ _ => noFault_bind (hmoderate.noFault_reduce _ _) fun _ _ =>
      noFault_ok _
  unfold demandElements
  cases hrank : x.rank? with
  | none => exact noFault_ok _
  | some rank => exact noFault_bind (Axis.noFault_resolve (hmoderate.rank?_lt hrank) _) fun _ _ =>
      noFault_refuseIf _ _

theorem Compress.noFault_infer (op : Compress) (h : sym.Moderate) : (op.infer sym).NoFault := by
  refine noFault_bind (sym.noFault_demand 0) fun x hx =>
      noFault_bind (sym.noFault_demand 1) fun c _ => ?_
  refine noFault_bind (noFault_refuseIf _ _) fun _ _ => ?_
  refine noFault_bind (c.shape.noFault_declareRank (by decide)) fun _ _ => ?_
  split
  · exact noFault_ok _
  · next axis ds _ hs =>
    exact noFault_bind (Axis.noFault_resolve ((h.demand hx).length_dims hs) axis) fun _ _ =>
        noFault_ok _
  · exact noFault_ok _

theorem Concat.noFault_infer (op : Concat) (h : sym.Moderate) : (op.infer sym).NoFault := by
  refine noFault_bind (sym.noFault_demand 0) fun first _ =>
      noFault_bind (noFault_refuseIf _ _) fun _ _ => ?_
  refine noFault_bind ?_ fun shape _ => ?_
  · unfold outputShape
    split
    · exact noFault_ok _
    · next ds rest hdims =>
      have hlength : ds.length < intLimit := by
        have hmem : ds ∈ ((Inputs.given sym).map (·.shape)).filterMap (·.dims?) :=
          hdims ▸ List.mem_cons_self
        obtain ⟨s, hs, hds⟩ := List.mem_filterMap.mp hmem
        obtain ⟨t, ht, rfl⟩ := List.mem_map.mp hs
        have hrank := (h t ht).rank_lt
        rwa [SymShape.dims, hds] at hrank
      refine noFault_bind (noFault_refuseIf _ _) fun _ _ => ?_
      refine noFault_bind (Axis.noFault_resolve hlength _) fun dim _ => ?_
      refine noFault_bind (noFault_foldlM (fun xs ys _ => noFault_mapM fun entry _ => ?_) ds)
        fun _ _ => noFault_ok _
      obtain ⟨⟨a, b⟩, k⟩ := entry
      dsimp only
      split_ifs
      · exact noFault_ok _
      · exact SymDim.noFault_refine _ _
  · split <;> exact noFault_ok _

theorem CumSum.noFault_infer (h : sym.Moderate) : (CumSum.infer sym).NoFault := by
  refine noFault_bind (sym.noFault_demand 0) fun x hx =>
      noFault_bind (sym.noFault_demand 1) fun t _ => ?_
  split
  · next hrank _ =>
      exact noFault_bind (Axis.noFault_resolve ((h.demand hx).rank?_lt hrank) _) fun _ _ =>
          noFault_ok _
  · exact noFault_ok _

theorem Flatten.noFault_infer (op : Flatten) (h : sym.Moderate) : (op.infer sym).NoFault := by
  refine noFault_bind (sym.noFault_demand 0) fun x hx => ?_
  cases hs : x.shape with
  | unknown => exact noFault_ok _
  | ranked ds =>
    simp only [ite_bind]
    refine noFault_bind (noFault_fromEnd (intOfSize_nonneg ((h.demand hx).length_dims hs)))
      fun _ _ => ?_
    exact noFault_bind (noFault_refuseIf _ _) fun _ _ => noFault_ok _

theorem Gather.noFault_infer (op : Gather) (h : sym.Moderate) : (op.infer sym).NoFault := by
  rw [infer_eq]
  refine noFault_bind (sym.noFault_demand 0) fun x hx =>
      noFault_bind (sym.noFault_demand 1) fun t _ => ?_
  refine noFault_bind (noFault_refuseIf _ _) fun _ _ => ?_
  have hmoderate := h.demand hx
  split
  · next ds ids hs _ =>
    refine noFault_bind (Axis.noFault_resolve (hmoderate.length_dims hs) _) fun dim _ => ?_
    split
    · next es entries hes _ =>
      split_ifs
      · have hlength := (hmoderate.elements es hes).trans_lt (by decide : _ < intLimit)
        exact noFault_bind (noFault_foldlM (fun s e _ => noFault_pick hlength s e) _)
          fun _ _ => noFault_ok _
      · exact noFault_ok _
    · exact noFault_ok _
  · exact noFault_ok _

theorem Indexing.noFault_demandAxis {x : SymTensor} (h : x.Moderate) (axis : Int64)
    (rank : Option Nat) : (demandAxis axis x.rank? rank).NoFault := by
  unfold demandAxis
  split
  · next hrank => exact noFault_bind (noFault_refuseIf _ _) fun _ _ =>
      noFault_bind (Axis.noFault_resolve (h.rank?_lt hrank) axis) fun _ _ => noFault_ok _
  · exact noFault_ok _

theorem GatherElements.noFault_infer (op : GatherElements) (h : sym.Moderate) :
    (op.infer sym).NoFault := by
  rw [infer_eq]
  refine noFault_bind (sym.noFault_demand 0) fun x hx =>
      noFault_bind (sym.noFault_demand 1) fun t _ => ?_
  refine noFault_bind (noFault_refuseIf _ _) fun _ _ => ?_
  exact noFault_bind (Indexing.noFault_demandAxis (h.demand hx) _ _) fun _ _ => noFault_ok _

theorem ScatterElements.noFault_infer (op : ScatterElements) (h : sym.Moderate) :
    (op.infer sym).NoFault := by
  rw [infer_eq]
  refine noFault_bind (sym.noFault_demand 0) fun x hx =>
      noFault_bind (sym.noFault_demand 1) fun t _ =>
    noFault_bind (sym.noFault_demand 2) fun u _ => noFault_bind (noFault_refuseIf _ _) fun _ _ => ?_
  refine noFault_bind (SymShape.noFault_refine _ _) fun _ _ => ?_
  refine noFault_bind (Indexing.noFault_demandAxis (h.demand hx) _ _) fun _ _ => ?_
  refine noFault_bind ?_ fun _ _ => noFault_ok _
  exact noFault_bind (noFault_refuseIf _ _) fun _ _ => noFault_ok _

theorem Normalization.noFault_demandAxis {x : SymTensor} (h : x.Moderate) (axis : Int64) :
    (demandAxis x.rank? axis).NoFault := by
  cases hrank : x.rank? with
  | none => exact noFault_ok _
  | some rank =>
    exact noFault_bind (Axis.noFault_resolve (h.rank?_lt hrank) axis) fun _ _ => noFault_ok _

theorem LayerNormalization.noFault_infer (op : LayerNormalization) (h : sym.Moderate) :
    (op.infer sym).NoFault := by
  rw [infer_eq]
  refine noFault_bind (sym.noFault_demand 0) fun x hx =>
      noFault_bind (sym.noFault_demand 1) fun _ _ => ?_
  refine noFault_bind (noFault_demandFloat x 1) fun _ _ => ?_
  exact noFault_bind (noFault_demandAxis (h.demand hx) _) fun _ _ => noFault_ok _

theorem Softmax.noFault_infer (op : Softmax) (h : sym.Moderate) : (op.infer sym).NoFault := by
  rw [infer_eq]
  refine noFault_bind (sym.noFault_demand 0) fun x hx => ?_
  refine noFault_bind (noFault_demandFloat x 1) fun _ _ => ?_
  exact noFault_bind (noFault_demandAxis (h.demand hx) _) fun _ _ => noFault_ok _

theorem OneHot.noFault_infer (op : OneHot) (h : sym.Moderate) : (op.infer sym).NoFault := by
  have hlimit := intLimit_eq
  refine noFault_bind (sym.noFault_demand 0) fun x hx =>
      noFault_bind (sym.noFault_demand 1) fun d _ =>
    noFault_bind (sym.noFault_demand 2) fun v _ => noFault_bind (noFault_refuseIf _ _) fun _ _ => ?_
  refine noFault_bind (v.shape.noFault_declareRank (by decide)) fun _ _ => ?_
  refine noFault_bind (SymDim.noFault_refine _ _) fun _ _ => noFault_bind ?_ fun _ _ => ?_
  · unfold depthDim
    split
    · split_ifs <;> simp
    · exact noFault_ok _
    · exact noFault_ok _
    · exact noFault_ok _
  · split
    · exact noFault_ok _
    · next ds hs =>
      have hrank : ds.length + 1 < intLimit := by
        have hrank := (h.demand hx).rank
        simp only [hs, SymShape.dims, SymShape.dims?, Option.getD_some, moderateLimit] at hrank
        omega
      exact noFault_bind (Axis.noFault_resolve hrank _) fun _ _ => noFault_ok _

theorem Reduce.noFault_infer (op : Reduce) (h : sym.Moderate) : (op.infer sym).NoFault := by
  rw [infer_eq]
  refine noFault_bind (sym.noFault_demand 0) fun x hx => ?_
  dsimp only
  generalize op.selectAxes ((Inputs.find? sym 1).map (·.ints?)) = axes
  split_ifs
  · exact noFault_ok _
  · refine noFault_bind ?_ fun _ _ => noFault_ok _
    cases axes with
    | unknown =>
      unfold outputShape
      cases x.rank? <;> exact noFault_ok _
    | keep => exact noFault_ok _
    | all => exact (h.demand hx).noFault_reduce none _
    | some axes => exact (h.demand hx).noFault_reduce (some axes) _

theorem TopK.noFault_infer (op : TopK) (h : sym.Moderate) : (op.infer sym).NoFault := by
  refine noFault_bind (sym.noFault_demand 0) fun x hx =>
      noFault_bind (sym.noFault_demand 1) fun k _ => ?_
  refine noFault_bind ?_ fun taken _ => noFault_bind ?_ fun _ _ => noFault_ok _
  · unfold takenDim
    split
    · split_ifs <;> simp
    · exact noFault_error _
    · exact noFault_ok _
  · rw [outputShape_eq]
    split
    · exact noFault_ok _
    · next rank hrank =>
      refine noFault_bind (Axis.noFault_resolve ((h.demand hx).rank?_lt hrank) _) fun dim _ => ?_
      refine noFault_bind ?_ fun _ _ => noFault_ok _
      unfold demandCount
      split
      · exact noFault_refuseIf _ _
      · exact noFault_ok _

theorem SymTensor.noFault_demandIntVector (t : SymTensor) : t.demandIntVector.NoFault :=
  noFault_bind (noFault_refuseIf _ _) fun _ _ =>
    noFault_bind (t.shape.noFault_declareRank (by decide)) fun _ _ => noFault_ok _

theorem Squeeze.noFault_infer (h : sym.Moderate) : (Squeeze.infer sym).NoFault := by
  refine noFault_bind (sym.noFault_demand 0) fun x hx => ?_
  cases hs : x.shape with
  | unknown => exact noFault_ok _
  | ranked ds =>
    refine noFault_bind ?_ fun _ _ => noFault_ok _
    cases Inputs.find? sym 1 with
    | none => exact noFault_ok _
    | some axes =>
      refine noFault_bind axes.noFault_demandIntVector fun _ _ => ?_
      split
      · exact noFault_bind (Axis.noFault_resolveAll ((h.demand hx).length_dims hs) _) fun _ _ =>
          noFault_bind (noFault_refuseIf _ _) fun _ _ => noFault_ok _
      · exact noFault_ok _

theorem ConstantOfShape.noFault_infer (op : ConstantOfShape) (h : sym.Moderate) :
    (op.infer sym).NoFault :=
  noFault_bind (sym.noFault_demand 0) fun _ hx => noFault_bind (noFault_refuseIf _ _) fun _ _ =>
    noFault_bind (h.demand hx).noFault_toSizes fun _ _ =>
      noFault_bind (noFault_refuseIf _ _) fun _ _ => noFault_ok _

theorem Expand.noFault_infer (h : sym.Moderate) : (Expand.infer sym).NoFault := by
  refine noFault_bind (sym.noFault_demand 0) fun x _ =>
      noFault_bind (sym.noFault_demand 1) fun t ht => ?_
  refine noFault_bind t.noFault_demandIntVector fun _ _ => ?_
  refine noFault_bind (h.demand ht).noFault_toSizes fun _ _ => ?_
  exact noFault_bind (SymShape.noFault_broadcast _) fun _ _ => noFault_ok _

theorem Tile.noFault_infer (h : sym.Moderate) : (Tile.infer sym).NoFault := by
  refine noFault_bind (sym.noFault_demand 0) fun x _ =>
      noFault_bind (sym.noFault_demand 1) fun t ht => ?_
  refine noFault_bind (noFault_refuseIf _ _) fun _ _ => ?_
  refine noFault_bind (h.demand ht).noFault_toSizes fun sizes _ => ?_
  cases sizes with
  | unknown => exact noFault_ok _
  | ranked rs => exact noFault_bind (x.shape.noFault_tile rs) fun _ _ => noFault_ok _

theorem Resize.noFault_infer (h : sym.Moderate) : (Resize.infer sym).NoFault := by
  rw [infer_eq]
  refine noFault_bind (sym.noFault_demand 0) fun x _ =>
      noFault_bind (noFault_refuseIf _ _) fun _ _ => ?_
  cases nonEmpty (Inputs.find? sym 2) with
  | some scales =>
    refine noFault_bind (noFault_bind (noFault_refuseIf _ _) fun _ _ => ?_) fun _ _ => noFault_ok _
    cases x.shape with
    | unknown => exact noFault_ok _
    | ranked ds =>
      exact noFault_bind (scales.shape.noFault_declareRank (by decide)) fun _ _ =>
        noFault_bind (SymDim.noFault_refine _ _) fun _ _ => noFault_ok _
  | none =>
    cases hsizes : nonEmpty (Inputs.find? sym 3) with
    | none => exact noFault_error _
    | some sizes =>
      have hmoderate := h.find? (Option.filter_eq_some_iff.mp hsizes).1
      refine noFault_bind ?_ fun _ _ => noFault_ok _
      rw [sizedShape_eq]
      refine noFault_bind (noFault_refuseIf _ _) fun _ _ => ?_
      refine noFault_bind hmoderate.noFault_toSizes fun s _ => noFault_bind ?_ fun _ _ =>
          noFault_ok _
      unfold demandCount
      split
      · exact noFault_refuseIf _ _
      · exact noFault_ok _

namespace SymDim

/-- Whether a size, if it is known, is not negative. -/
def NonNegative (d : SymDim) : Prop := ∀ n ∈ d.value?, 0 ≤ n.toInt

theorem Moderate.nonNegative {d : SymDim} (h : d.Moderate) : d.NonNegative := fun n hn => (h n hn).1

theorem value?_ofOption (o : Option Int64) : (ofOption o).value? = o := by
  cases o <;> rfl

theorem NonNegative.mul {x y : SymDim} (hx : x.NonNegative) (hy : y.NonNegative) :
    (x * y).NonNegative := by
  change (SymDim.mul x y).NonNegative
  unfold SymDim.mul
  split_ifs
  · exact hx
  · exact hy
  · rintro n ⟨⟩
    decide
  · cases x with
    | unknown | param _ => cases y <;> rintro n ⟨⟩
    | size m =>
      cases y with
      | unknown | param _ => rintro n ⟨⟩
      | size k =>
        intro n hn
        rw [toInt_of_mulInt? ((value?_ofOption _).symm.trans hn)]
        exact Int.mul_nonneg (hx m rfl) (hy k rfl)

theorem nonNegative_product {ds : List SymDim} (h : ∀ d ∈ ds, d.NonNegative) :
    (product ds).NonNegative := by
  have hfold : ∀ x : SymDim, x.NonNegative → (ds.foldl (· * ·) x).NonNegative := by
    induction ds with
    | nil => exact fun _ hx => hx
    | cons d ds ih =>
      intro x hx
      rw [List.forall_mem_cons] at h
      exact ih h.2 _ (hx.mul h.1)
  refine hfold _ ?_
  rintro n ⟨⟩
  decide

end SymDim

theorem SymTensor.Moderate.nonNegative_count {x : SymTensor} (h : x.Moderate) :
    x.shape.count.NonNegative := by
  cases hs : x.shape with
  | unknown => rintro n ⟨⟩
  | ranked ds =>
    refine SymDim.nonNegative_product fun d hd => (h.sizes d ?_).nonNegative
    rwa [hs]

/-- The known count of a moderate tensor is not negative, so that any divisor but zero will do. -/
theorem SymShape.noFault_openDim {total known : SymDim} (h : total.NonNegative) :
    (openDim total known).NoFault := by
  unfold openDim
  split
  · next m k hm hk =>
    refine noFault_bind (noFault_refuseIf _ _) fun _ hzero => ?_
    have hne : k.toInt ≠ 0 := fun h => refuseIf_eq_ok.mp hzero (Int64.toInt_inj.mp h)
    have hnonneg : 0 ≤ m.toInt := h m hm
    have hdiv : (divInt m k : Outcome RuleError Int64).NoFault := noFault_divInt_iff.mpr (by omega)
    refine noFault_bind (noFault_remInt hdiv) fun _ _ =>
        noFault_bind (noFault_refuseIf _ _) fun _ _ => ?_
    exact noFault_bind hdiv fun _ _ => noFault_ok _
  · exact noFault_ok _

theorem Reshape.noFault_infer (op : Reshape) (h : sym.Moderate) : (op.infer sym).NoFault := by
  refine noFault_bind (sym.noFault_demand 0) fun x hx =>
      noFault_bind (sym.noFault_demand 1) fun t ht => ?_
  refine noFault_bind t.noFault_demandIntVector fun _ _ => ?_
  refine noFault_bind (h.demand ht).noFault_toSizes fun target _ => noFault_bind ?_ fun _ _ =>
      noFault_ok _
  cases target with
  | unknown => exact noFault_ok _
  | ranked wanted =>
    refine noFault_bind (x.shape.noFault_targetDims _ _ _ _) fun dims _ => ?_
    split
    · refine noFault_bind (noFault_refuseIf _ _) fun _ _ => ?_
      exact noFault_bind (SymShape.noFault_openDim (h.demand hx).nonNegative_count) fun _ _ =>
        noFault_ok _
    · split
      · exact noFault_bind (noFault_refuseIf _ _) fun _ _ => noFault_ok _
      · exact noFault_ok _

theorem Unsqueeze.noFault_infer (h : sym.Moderate) : (Unsqueeze.infer sym).NoFault := by
  have hlimit := intLimit_eq
  refine noFault_bind (sym.noFault_demand 0) fun x hx =>
      noFault_bind (sym.noFault_demand 1) fun t ht => ?_
  refine noFault_bind t.noFault_demandIntVector fun _ _ => noFault_bind ?_ fun _ _ => noFault_ok _
  cases hs : x.shape with
  | unknown => exact noFault_ok _
  | ranked ds =>
    have hrank := (h.demand hx).rank
    simp only [hs, SymShape.dims, SymShape.dims?, Option.getD_some] at hrank
    unfold outputShape
    cases hns : t.ints? with
    | some ns =>
      have hcount : ns.length ≤ moderateLimit := by
        obtain ⟨es, hes, hints⟩ := Option.bind_eq_some_iff.mp hns
        exact (Option.mapM_eq_some.mp hints).length_eq ▸ (h.demand ht).elements es hes
      simp only [moderateLimit] at hrank hcount
      refine noFault_bind (Axis.noFault_resolveAll (by omega) ns) fun _ _ => ?_
      refine noFault_bind (noFault_checkRoom ?_) fun _ _ => noFault_ok _
      simp only [SymDim.bytes, byteLimit]
      omega
    | none =>
      dsimp only
      split
      · next n hn =>
        have hsize := (h.demand ht).dim 0 n hn
        rw [sizeOfInt_of_nonneg (by rw [Int64.le_iff_toInt_le]; exact hsize.1)]
        simp only [moderateLimit] at hrank hsize
        have hword : ds.length + n.toInt.toNat < sizeLimit := by
          simp only [sizeLimit]
          omega
        refine noFault_bind (noFault_checkSize hword) fun rank hchecked => ?_
        obtain ⟨-, rfl⟩ := checkSize_eq_ok.mp hchecked
        refine SymShape.noFault_ofLargeRank ?_
        simp only [SymDim.bytes, byteLimit]
        omega
      · exact noFault_ok _

theorem GatherND.noFault_infer (op : GatherND) (h : sym.Moderate) : (op.infer sym).NoFault := by
  have hlimit := intLimit_eq
  rw [infer_eq]
  refine noFault_bind (sym.noFault_demand 0) fun x _ =>
      noFault_bind (sym.noFault_demand 1) fun t ht => ?_
  refine noFault_bind (noFault_refuseIf _ _) fun _ _ => ?_
  split
  · next ds ids _ hs =>
    refine noFault_bind (noFault_refuseIf _ _) fun _ hbatch => ?_
    refine noFault_bind (noFault_mapM fun _ _ => SymDim.noFault_refine _ _) fun _ _ => ?_
    split
    · exact noFault_ok _
    · next n hn =>
      refine noFault_bind (noFault_checkSize ?_) fun _ _ =>
        noFault_bind (noFault_refuseIf _ _) fun _ _ => noFault_ok _
      have hrank := (h.demand ht).length_dims hs
      have hlast : ids.getLastD .unknown = ids.getD (ids.length - 1) .unknown := by
        rw [List.getLastD_eq_getLast?, List.getLast?_eq_getElem?, List.getD_eq_getElem?_getD]
      have hsize := (h.demand ht).getD hs _ n (hlast ▸ hn)
      rw [sizeOfInt_of_nonneg (by rw [Int64.le_iff_toInt_le]; exact hsize.1)]
      have hshort := refuseIf_eq_ok.mp hbatch
      simp only [moderateLimit] at hsize
      simp only [sizeLimit]
      omega
  · exact noFault_ok _

theorem Pad.noFault_expand {ε α : Type} {pads : List α} {dims : List Nat}
    (h : pads.length = dims.length * 2) (rank : Nat) (zero : α) :
    (expand pads dims rank zero : Outcome ε (List α)).NoFault := by
  refine noFault_foldlM (fun full entry hentry => ?_) _
  obtain ⟨dim, i⟩ := entry
  have hindex : i < dims.length := (List.mem_zipIdx' hentry).1
  dsimp only
  rw [List.getElem?_eq_getElem (by omega), List.getElem?_eq_getElem (by omega)]
  exact noFault_ok _

theorem Pad.noFault_infer (op : Pad) (h : sym.Moderate) : (op.infer sym).NoFault := by
  rw [infer_eq]
  refine noFault_bind (sym.noFault_demand 0) fun x hx =>
      noFault_bind (sym.noFault_demand 1) fun t _ => ?_
  refine noFault_bind (noFault_refuseIf _ _) fun _ _ => ?_
  refine noFault_bind (t.shape.noFault_declareRank (by decide)) fun _ _ => ?_
  refine noFault_bind (noFault_refuseIf _ _) fun _ _ => ?_
  cases t.elements with
  | none => exact noFault_ok _
  | some es =>
    refine noFault_bind ?_ fun full _ => ?_
    · unfold allPads
      split
      · exact noFault_ok _
      · exact noFault_ok _
      · next hrank =>
        split
        · exact noFault_ok _
        · have hresolve := Axis.noFault_resolveAll ((h.demand hx).rank?_lt hrank)
          refine noFault_bind (hresolve _) fun dims _ => ?_
          refine noFault_bind (noFault_refuseIf _ _) fun _ hcount => ?_
          exact noFault_bind (noFault_expand (not_not.mp (refuseIf_eq_ok.mp hcount)) _ _)
            fun _ _ => noFault_ok _
    · cases full with
      | none => exact noFault_ok _
      | some pads =>
        exact noFault_bind (noFault_bind (x.shape.noFault_pad _) fun _ _ =>
          noFault_bind (noFault_refuseIf _ _) fun _ _ => noFault_ok _) fun _ _ => noFault_ok _

end

end TensorGraph
