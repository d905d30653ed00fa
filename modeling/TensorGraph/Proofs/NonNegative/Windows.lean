import TensorGraph.Proofs.NonNegative.Telling

/-! Rules of windows and images, which tell no negative sizes where they ask for positive ones, or
scale by numbers without a sign. -/

namespace TensorGraph

open WeightedWindow
open Outcome SymShape SymDim

variable {sym : SymInputs}

theorem Window.nonNegative_outputSize {d e z : SymDim} {stride dilation : Nat}
    {padding : DimPadding} {ceil : Bool}
    (h : outputSize d e stride dilation padding ceil = .ok z) : z.NonNegative := by
  obtain ⟨count, -, h⟩ := bind_eq_ok.mp h
  obtain ⟨_, hpositive, h⟩ := bind_eq_ok.mp h
  cases h
  exact nonNegative_of_any (by decide) (refuseIf_eq_ok.mp hpositive)

theorem ConvTranspose.nonNegative_spatialSize {d e z : SymDim} {stride dilation extra : Nat}
    {padding : DimPadding} (h : spatialSize d e stride dilation extra padding = .ok z) :
    z.NonNegative := by
  obtain ⟨size, -, h⟩ := bind_eq_ok.mp h
  obtain ⟨_, hpositive, h⟩ := bind_eq_ok.mp h
  cases h
  exact nonNegative_of_any (by decide) (refuseIf_eq_ok.mp hpositive)

theorem nonNegative_range {rank : Nat} {f : Nat → Outcome RuleError SymDim} {sizes : List SymDim}
    (hf : ∀ k d, f k = .ok d → d.NonNegative) (h : (List.range rank).mapM f = .ok sizes) :
    ∀ d ∈ sizes, d.NonNegative := by
  intro d hd
  obtain ⟨i, hi⟩ := List.getElem?_of_mem hd
  obtain ⟨k, -, hk⟩ := Related.get_left (mapM_eq_ok.mp h).flip hi
  exact hf k d hk

theorem Pool.nonNegative_spatialSizes {op : Pool} {ds sizes : List SymDim} {strides : List Nat}
    (h : op.spatialSizes ds strides = .ok sizes) : ∀ d ∈ sizes, d.NonNegative := by
  refine nonNegative_range (fun k d hd => ?_) h
  obtain ⟨padding, -, hd⟩ := bind_eq_ok.mp hd
  exact Window.nonNegative_outputSize hd

theorem Conv.nonNegative_spatialSizes {op : Conv} {ds ws sizes : List SymDim}
    {strides dilations : List Nat} (h : op.spatialSizes ds ws strides dilations = .ok sizes) :
    ∀ d ∈ sizes, d.NonNegative := by
  refine nonNegative_range (fun k d hd => ?_) h
  obtain ⟨padding, -, hd⟩ := bind_eq_ok.mp hd
  exact Window.nonNegative_outputSize hd

theorem ConvTranspose.nonNegative_spatialSizes {op : ConvTranspose} {ds ws sizes : List SymDim}
    {strides dilations extra : List Nat}
    (h : op.spatialSizes ds ws strides dilations extra = .ok sizes) :
    ∀ d ∈ sizes, d.NonNegative := by
  refine nonNegative_range (fun k d hd => ?_) h
  obtain ⟨padding, -, hd⟩ := bind_eq_ok.mp hd
  exact nonNegative_spatialSize hd

theorem Pool.nonNegative_dims? {x : SymTensor} {ds : List SymDim} (hx : x.shape.NonNegative)
    (h : dims? x = .ok (some ds)) : ∀ d ∈ ds, d.NonNegative := by
  obtain ⟨_, -, h⟩ := bind_eq_ok.mp h
  obtain ⟨_, -, h⟩ := bind_eq_ok.mp h
  cases hs : x.shape with
  | unknown => simp [hs, SymShape.dims?] at h
  | ranked es =>
    simp only [hs, SymShape.dims?, pure_eq, ok.injEq, Option.some.injEq] at h
    rw [hs] at hx
    exact h ▸ hx

theorem Pool.tellsNonNegative (op : Pool) (h : sym.NonNegative) :
    TellsNonNegative (op.infer sym) := by
  refine always_bind fun x hx => always_bind fun dims hdims => ?_
  cases dims with
  | none => exact tellsNonNegative_unranked _
  | some ds =>
    have hds := nonNegative_dims? (h.demand hx) hdims
    refine always_bind fun _ _ => always_bind fun _ _ => always_bind fun sizes hsizes => ?_
    refine tellsNonNegative_single fun d hd => ?_
    rcases List.mem_append.mp hd with hd | hd
    · exact hds d (List.mem_of_mem_take hd)
    · exact nonNegative_spatialSizes hsizes d hd

theorem GlobalPool.tellsNonNegative (h : sym.NonNegative) :
    TellsNonNegative (GlobalPool.infer sym) := by
  refine always_bind fun x hx => always_bind fun dims hdims => ?_
  cases dims with
  | none => exact tellsNonNegative_unranked _
  | some ds =>
    have hds := Pool.nonNegative_dims? (h.demand hx) hdims
    refine tellsNonNegative_single fun d hd => ?_
    rcases List.mem_append.mp hd with hd | hd
    · exact hds d (List.mem_of_mem_take hd)
    · rw [List.eq_of_mem_replicate hd]
      exact nonNegative_one

theorem WeightedWindow.nonNegative_dims? {x w : SymTensor} {ds ws : List SymDim}
    (hx : x.shape.NonNegative) (hw : w.shape.NonNegative) (h : dims? x w = .ok (some (ds, ws))) :
    (∀ d ∈ ds, d.NonNegative) ∧ ∀ d ∈ ws, d.NonNegative := by
  obtain ⟨_, -, h⟩ := bind_eq_ok.mp h
  obtain ⟨_, -, h⟩ := bind_eq_ok.mp h
  split at h
  · next es vs hs hv =>
    obtain ⟨_, -, h⟩ := bind_eq_ok.mp h
    cases h
    rw [hs] at hx
    rw [hv] at hw
    exact ⟨hx, hw⟩
  · cases h

theorem Conv.tellsNonNegative (op : Conv) (h : sym.NonNegative) :
    TellsNonNegative (op.infer sym) := by
  rw [infer_eq]
  refine always_bind fun x hx => always_bind fun w hw => always_bind fun _ _ => ?_
  refine always_bind fun _ _ => always_bind fun dims hdims => ?_
  rcases dims with _ | ⟨ds, ws⟩
  · exact tellsNonNegative_unranked _
  · obtain ⟨hds, hws⟩ := nonNegative_dims? (h.demand hx) (h.demand hw) hdims
    refine always_bind fun _ _ => always_bind fun _ _ => always_bind fun _ _ => ?_
    refine always_bind fun _ _ => always_bind fun _ _ => always_bind fun sizes hsizes => ?_
    refine tellsNonNegative_single ?_
    simp only [SymTensor.shape_ofShape, nonNegative_ranked, List.forall_mem_cons]
    exact ⟨NonNegative.getD hds 0, NonNegative.getD hws 0, nonNegative_spatialSizes hsizes⟩

theorem ConvTranspose.tellsNonNegative (op : ConvTranspose) (h : sym.NonNegative)
    (hgroups : op.groups < intLimit) : TellsNonNegative (op.infer sym) := by
  rw [infer_eq]
  refine always_bind fun x hx => always_bind fun w hw => always_bind fun _ _ => ?_
  refine always_bind fun _ _ => always_bind fun dims hdims => ?_
  rcases dims with _ | ⟨ds, ws⟩
  · exact tellsNonNegative_unranked _
  · obtain ⟨hds, hws⟩ := nonNegative_dims? (h.demand hx) (h.demand hw) hdims
    refine always_bind fun _ _ => always_bind fun _ _ => always_bind fun _ _ => ?_
    refine always_bind fun _ _ => always_bind fun _ _ => always_bind fun sizes hsizes => ?_
    refine tellsNonNegative_single ?_
    simp only [SymTensor.shape_ofShape, nonNegative_ranked, List.forall_mem_cons]
    have hchannels := (NonNegative.getD hws 1).mul (nonNegative_ofSize hgroups)
    exact ⟨NonNegative.getD hds 0, hchannels, nonNegative_spatialSizes hsizes⟩

namespace Resize

theorem nonNegative_scaledDim {d : SymDim} {scale : Option Float32} (hd : d.NonNegative)
    (hscale : ∀ s ∈ scale, Binary32.isNegative s = false) : (scaledDim d scale).NonNegative := by
  cases scale with
  | none => exact SymDim.nonNegative_unknown
  | some s =>
    unfold scaledDim
    dsimp only
    split_ifs
    · exact hd
    · cases hn : d.value? with
      | none => exact SymDim.nonNegative_unknown
      | some n =>
        have hsize := Binary32.isNegative_ofInt (hd n hn)
        have hscaled := Binary32.isNegative_mul hsize (hscale s rfl)
        exact nonNegative_size.mpr (Binary32.nonneg_toInt hscaled)

theorem nonNegative_scaledShape {x s : SymShape} {scales : SymTensor} (hx : x.NonNegative)
    (hscales : scales.ListsUnsigned) (h : scaledShape x scales = .ok s) : s.NonNegative := by
  obtain ⟨_, -, h⟩ := bind_eq_ok.mp h
  cases x with
  | unknown =>
    cases h
    exact SymShape.nonNegative_unknown
  | ranked ds =>
    obtain ⟨_, -, h⟩ := bind_eq_ok.mp h
    obtain ⟨_, -, h⟩ := bind_eq_ok.mp h
    cases h
    intro d hd
    obtain ⟨⟨e, k⟩, he, rfl⟩ := List.mem_map.mp hd
    refine nonNegative_scaledDim (hx e (List.fst_mem_of_mem_zipIdx he)) fun s hs => ?_
    cases hget : scales.get k with
    | float bits =>
      rw [hget] at hs
      cases hs
      cases hes : scales.elements with
      | none => simp [SymTensor.get, hes] at hget
      | some es =>
        rw [SymTensor.get, hes, Option.getD_some, List.getD_eq_getElem?_getD] at hget
        cases hk : es[k]? with
        | none => simp [hk] at hget
        | some e =>
          rw [hk, Option.getD_some] at hget
          exact hscales es hes bits (hget ▸ List.mem_of_getElem? hk)
    | int _ | param _ | unknown =>
      rw [hget] at hs
      cases hs

theorem nonNegative_sizedShape {x s : SymShape} {sizes : SymTensor} (hsizes : sizes.ListsSizes)
    (h : sizedShape x sizes = .ok s) : s.NonNegative := by
  obtain ⟨_, -, h⟩ := bind_eq_ok.mp h
  obtain ⟨target, htarget, h⟩ := bind_eq_ok.mp h
  have hs : s = target := by
    dsimp only at h
    split at h
    · obtain ⟨_, -, h⟩ := bind_eq_ok.mp h
      exact (ok.inj h).symm
    · exact (ok.inj h).symm
  exact hs ▸ hsizes.toSizes htarget

theorem tellsNonNegative (h : sym.NonNegative)
    (hscales : ∀ t, Inputs.find? sym 2 = some t → t.ListsUnsigned)
    (hsizes : ∀ t, Inputs.find? sym 3 = some t → t.ListsSizes) :
    TellsNonNegative (Resize.infer sym) := by
  refine always_bind fun x hx => always_bind fun _ _ => ?_
  cases hkept : nonEmpty (Inputs.find? sym 2) with
  | some scales =>
    refine always_bind fun s hs => tellsNonNegative_single ?_
    have hgiven := (Option.filter_eq_some_iff.mp hkept).1
    exact nonNegative_scaledShape (h.demand hx) (hscales scales hgiven) hs
  | none =>
    cases hkept : nonEmpty (Inputs.find? sym 3) with
    | some sizes =>
      refine always_bind fun s hs => tellsNonNegative_single ?_
      exact nonNegative_sizedShape (hsizes sizes (Option.filter_eq_some_iff.mp hkept).1) hs
    | none => exact always_error _

end Resize

end TensorGraph
