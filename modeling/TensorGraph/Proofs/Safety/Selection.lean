import TensorGraph.Proofs.Safety.Indexing

/-! Operators that encode indices or select elements. The shapes of the last two depend on elements,
which are counted before the kernels run. -/

namespace TensorGraph

open Outcome Kernel

variable {inputs : ValueInputs} {outputs : List Value} {out x t : Value} {ε α : Type}

namespace OneHot

theorem rank_out {op : OneHot} (h : (Operator.oneHot op).Accepts inputs [out])
    (ht : Inputs.find? inputs 0 = some t) : out.shape.length = t.shape.length + 1 := by
  obtain ⟨w, hw, -, hshape⟩ := h.infer_single rfl
  simp only [Operator.infer, infer, Operator.demand_told _ ht, ok_bind] at hw
  obtain ⟨depth, -, hw⟩ := bind_eq_ok.mp hw
  obtain ⟨values, -, hw⟩ := bind_eq_ok.mp hw
  obtain ⟨_, -, hw⟩ := bind_eq_ok.mp hw
  obtain ⟨_, -, hw⟩ := bind_eq_ok.mp hw
  obtain ⟨_, -, hw⟩ := bind_eq_ok.mp hw
  obtain ⟨d, -, hw⟩ := bind_eq_ok.mp hw
  simp only [Operator.shape_told, SymShape.ofShape] at hw
  obtain ⟨dim, hdim, hw⟩ := bind_eq_ok.mp hw
  cases hw
  have hdim := Axis.resolve_lt hdim
  have hlen := congrArg SymShape.rank? hshape
  simp only [SymTensor.shape_ofShape, SymShape.ofShape, SymShape.rank?_ranked, List.length_append,
    List.length_take, List.length_cons, List.length_drop, List.length_map,
    Option.some.injEq] at hlen hdim
  omega

theorem noFault_element {size : Nat} (h : size < intLimit) (t : Tensor Int64) (off on : α)
    (dim : Nat) (position : Index) :
    (element t off on dim (intOfSize size) position : Outcome ε α).NoFault := by
  simp only [element, ite_bind]
  exact noFault_bind (noFault_fromEnd (intOfSize_nonneg h)) fun _ _ => noFault_ok _

theorem safe (op : OneHot) (h : (Operator.oneHot op).Accepts inputs outputs) :
    Safe (op.prepare inputs outputs) := by
  refine safe_demand fun t ht => safe_demand fun values _ => ?_
  have hlimit : t.rank + 1 < intLimit :=
    Nat.lt_of_le_of_lt (h.fits_input ht).rank_lt (by decide)
  refine safe_bind (noFault_mapError _ (Axis.noFault_resolve hlimit _)) fun dim hdim => ?_
  refine safe_single fun out hout => safe_ok (noFault_bind (noFault_typed _) fun t' ht' => ?_)
  subst hout
  have hdim := Axis.resolve_lt (mapError_eq_ok.mp hdim)
  have hrank := rank_out h ht
  refine noFault_sameType fun values' out' _ _ hout' => ?_
  split
  · have hfits := hout' ▸ h.fits_single
    refine noFault_bind (Tensor.noFault_size ?_) fun size hsize => ?_
    · rw [hout', hrank]
      exact hdim
    have hsize := hfits.size_lt (List.mem_of_getElem? (Tensor.size_eq_ok hsize))
    rw [Layout.checkedAll_of_extent hfits.extent_lt_sizeLimit, ok_bind]
    refine noFault_bind (noFault_mapM fun position _ => ?_) fun _ _ => noFault_ok _
    exact noFault_element (hsize.trans (by decide)) t' _ _ dim position
  · exact noFault_error _

end OneHot

namespace NonZero

theorem noFault_writePlaces {entries : List (Nat × Int64)} {out : Tensor Int64}
    (h : ∀ e ∈ entries, e.1 < out.data.length) :
    (entries.foldlM (fun out (place, i) => out.writeAt place [i]) out :
      Outcome ε (Tensor Int64)).NoFault := by
  induction entries generalizing out with
  | nil => exact noFault_ok _
  | cons e entries ih =>
    rw [List.forall_mem_cons] at h
    rw [List.foldlM_cons]
    refine noFault_bind (Tensor.noFault_writeAt h.1) fun next hnext => ih ?_
    rw [Tensor.count_writeAt hnext]
    exact h.2

theorem noFault_fill [Element α] {x : Tensor α} {out : Tensor Int64} (hx : x.shape.Fits)
    (hout : out.shape = [x.shape.length, (positions x).length]) :
    (fill x out : Outcome OpError _).NoFault := by
  have hcolumns : (out.size 1 : Outcome OpError Nat) = .ok (positions x).length := by
    simp [Tensor.size, hout]
  rw [fill, hcolumns, ok_bind, Layout.checkedCount_eq_ok hx.extent_lt_sizeLimit, ok_bind]
  refine noFault_writePlaces fun e he => ?_
  obtain ⟨⟨index, column⟩, hcolumn, he⟩ := List.mem_flatMap.mp he
  obtain ⟨⟨i, row⟩, hrow, rfl⟩ := List.mem_map.mp he
  have hindex := List.mem_of_getElem? (List.mem_zipIdx_iff_getElem?.mp hcolumn)
  obtain ⟨⟨position, a⟩, hzip, hkept⟩ := List.mem_filterMap.mp hindex
  obtain rfl : position = index := by
    dsimp only at hkept
    split_ifs at hkept
    exact Option.some.inj hkept
  have hlen := (Index.lt_of_mem_all (List.of_mem_zip hzip).1).length_eq
  have hrow := (List.getElem?_eq_some_iff.mp (List.mem_zipIdx_iff_getElem?.mp hrow)).1
  have hcolumn := (List.getElem?_eq_some_iff.mp (List.mem_zipIdx_iff_getElem?.mp hcolumn)).1
  have hplace : (row + 1) * (positions x).length ≤ x.shape.length * (positions x).length :=
    Nat.mul_le_mul_right _ (by omega)
  rw [Nat.succ_mul] at hplace
  rw [out.length_data, hout]
  simp only [Shape.volume, Nat.mul_one]
  omega

theorem safe (h : Operator.nonZero.Accepts inputs outputs) :
    Safe (NonZero.prepare inputs outputs) := by
  refine safe_demand fun x hx => safe_single fun out hout => safe_ok ?_
  subst hout
  have hfits := h.fits_input hx
  have hshape : out.shape = [x.rank, count x] := by
    have htypes := h.outputTypes
    rw [Operator.outputTypes, outputTypes, ValueInputs.demand, hx] at htypes
    exact Value.shape_of_type (ok.inj htypes).symm
  refine noFault_intOutput fun out' hout' => ?_
  have hout' := hout'.trans hshape
  cases x with
  | float x => exact noFault_fill hfits hout'
  | int x => exact noFault_fill hfits hout'

end NonZero

namespace Compress

theorem lt_of_mem_selected {condition : List Int64} {k : Nat} (h : k ∈ selected condition) :
    k < condition.length := by
  obtain ⟨⟨c, i⟩, hzip, hkept⟩ := List.mem_filterMap.mp h
  dsimp only at hkept
  split_ifs at hkept
  cases hkept
  exact (List.getElem?_eq_some_iff.mp (List.mem_zipIdx_iff_getElem?.mp hzip)).1

theorem dim?_lt {op : Compress} {dim : Nat} (h : op.dim? x = .ok (some dim)) :
    dim < x.shape.length := by
  unfold dim? at h
  cases haxis : op.axis with
  | none =>
    rw [haxis] at h
    cases h
  | some axis =>
    rw [haxis] at h
    obtain ⟨k, hk, h⟩ := bind_eq_ok.mp h
    cases h
    exact Axis.resolve_lt (mapError_eq_ok.mp hk)

theorem noFault_dim? {op : Compress} (hx : x.shape.Fits) : (op.dim? x).NoFault := by
  unfold dim?
  cases op.axis with
  | none => exact noFault_ok _
  | some axis => exact noFault_bind (Axis.noFault_resolve_value hx axis) fun _ _ => noFault_ok _

/-- The condition lists no more than there is, and the output holds as many slices as it selects. -/
theorem shape_out {op : Compress} (h : (Operator.compress op).Accepts inputs [out])
    (hx : Inputs.find? inputs 0 = some x) {c : Tensor Int64}
    (hc : Inputs.find? inputs 1 = some (.int c)) {dim : Option Nat} (hdim : op.dim? x = .ok dim) :
    c.data.length ≤ dim.elim x.count (x.shape.getD · 0) ∧
      out.shape = dim.elim [(selected c.data).length] (x.shape.set · (selected c.data).length) := by
  have htypes := h.outputTypes
  simp only [Operator.outputTypes, outputTypes, ValueInputs.demand, hx, hc, orRefuse_some, ok_bind]
    at htypes
  obtain ⟨c', hcast, hrest⟩ := bind_eq_ok.mp htypes
  cases Value.eq_int_of_cast (mapError_eq_ok.mp hcast)
  obtain ⟨_, hrank, hrest⟩ := bind_eq_ok.mp hrest
  rw [hdim, ok_bind] at hrest
  obtain ⟨_, hlong, hrest⟩ := bind_eq_ok.mp hrest
  have hlong := refuseIf_eq_ok.mp hlong
  rw [not_lt] at hlong
  exact ⟨hlong, Value.shape_of_type (ok.inj hrest).symm⟩

theorem noFault_fill {x out : Tensor α} {condition : List Int64} {dim : Option Nat}
    (hx : x.shape.Fits) (hdim : ∀ k ∈ dim, k < x.shape.length)
    (hlong : condition.length ≤ dim.elim x.count (x.shape.getD · 0))
    (hout : out.shape = dim.elim [(selected condition).length]
      (x.shape.set · (selected condition).length)) :
    (fill x condition dim out : Outcome OpError _).NoFault := by
  cases dim with
  | none =>
    refine noFault_bind (noFault_mapM fun k hk => ?_) fun _ _ => noFault_ok _
    have hk := lt_of_mem_selected (List.mem_of_mem_take hk)
    rw [noFault_ofOption_iff, List.getElem?_eq_getElem (hk.trans_le hlong)]
    rfl
  | some dim =>
    have hlt := hdim dim rfl
    rw [fill]
    dsimp only
    rw [Tensor.outerInner_eq_ok hx.extent_lt_sizeLimit, ok_bind]
    refine noFault_bind (Tensor.noFault_size hlt) fun size hsize => ?_
    have hsize := Tensor.size_eq_ok hsize
    refine Tensor.noFault_writeBlocks_of_length
      (n := Shape.volume (x.shape.drop (dim + 1))) (fun block hblock => ?_) ?_
    · obtain ⟨i, hi, hblock⟩ := List.mem_flatMap.mp hblock
      obtain ⟨k, hk, rfl⟩ := List.mem_map.mp hblock
      refine Tensor.isBlock_inner hsize (List.mem_range.mp hi) ((lt_of_mem_selected hk).trans_le ?_)
      rwa [Option.elim_some, List.getD_eq_getElem?_getD, hsize] at hlong
    · rw [out.length_data, hout, Option.elim_some, Shape.volume_set hlt]
      simp [List.length_flatMap]

theorem safe (op : Compress) (h : (Operator.compress op).Accepts inputs outputs) :
    Safe (op.prepare inputs outputs) := by
  refine safe_demand fun x hx => safe_demand fun c hc => ?_
  have hfits := h.fits_input hx
  refine safe_bind (noFault_dim? hfits) fun dim hdim => safe_single fun out hout => ?_
  subst hout
  refine safe_ok (noFault_bind (noFault_typed _) fun c' hc' => ?_)
  obtain rfl := eq_wrap_of_typed hc'
  obtain ⟨hlong, hshape⟩ := shape_out h hx hc hdim
  refine noFault_sameType fun x' out' hwrap hx' hout' => ?_
  refine noFault_fill (hx' ▸ hfits) (fun k hk => ?_) ?_ ?_
  · cases hk
    exact hx' ▸ dim?_lt hdim
  · rwa [Tensor.count_eq, hx', ← Value.count_eq_volume]
  · rw [hout', hx', hshape]

end Compress

end TensorGraph
