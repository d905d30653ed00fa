import TensorGraph.Proofs.Safety.Windows

/-! Convolution and pooling. The geometry of a call comes from the shapes that the rule has
accepted, and its windows read and write inside the image. -/

namespace TensorGraph

open Outcome Kernel

variable {inputs : ValueInputs} {outputs : List Value} {out x v : Value} {ε α β : Type}

theorem sizes_of_rule {rank : Nat} {f : Nat → Outcome RuleError SymDim} {front sizes : List SymDim}
    {out : Shape} (hsizes : (List.range rank).mapM f = .ok sizes) (hfront : front.length = 2)
    (hout : front ++ sizes = out.map .ofSize) : out.length = rank + 2 ∧
      ∀ k < rank, f k = .ok (.ofSize ((out.drop 2).getD k 0)) := by
  have hall := mapM_eq_ok.mp hsizes
  have hlen := hall.length_eq
  rw [List.length_range] at hlen
  have hrank := congrArg List.length hout
  rw [List.length_append, List.length_map] at hrank
  have hdrop : sizes = (out.drop 2).map .ofSize := by
    rw [List.map_drop, ← hout, ← hfront, List.drop_left]
  refine ⟨by omega, fun k hk => ?_⟩
  obtain ⟨d, hd, hf⟩ := Related.get_left hall (List.getElem?_range hk)
  have hlast : k < (out.drop 2).length := by
    rw [List.length_drop]
    omega
  rw [hdrop, List.getElem?_map, List.getElem?_eq_getElem hlast, Option.map_some, Option.some.injEq]
    at hd
  rw [hf, ← hd, List.getD_eq_getElem?_getD, List.getElem?_eq_getElem hlast, Option.getD_some]

theorem getD_ofSize {shape : Shape} {k : Nat} (hk : k < (shape.drop 2).length) :
    (shape.map SymDim.ofSize).getD (2 + k) .unknown = .ofSize ((shape.drop 2).getD k 0) := by
  rw [List.length_drop] at hk
  have hlast : 2 + k < shape.length := by omega
  simp [List.getD_eq_getElem?_getD, hlast]

theorem WeightedWindow.dims_told {op : Operator} {i j : Nat} {x w : Value}
    {o : Option (List SymDim × List SymDim)} (h : dims? (op.told i x) (op.told j w) = .ok o) :
    3 ≤ x.shape.length ∧ w.shape.length = x.shape.length ∧
      o = some (x.shape.map .ofSize, w.shape.map .ofSize) := by
  simp only [dims?, Operator.shape_told, SymShape.ofShape] at h
  obtain ⟨_, hrank, h⟩ := bind_eq_ok.mp h
  obtain ⟨_, -, h⟩ := bind_eq_ok.mp h
  obtain ⟨_, hsame, h⟩ := bind_eq_ok.mp h
  cases h
  have hsame := not_not.mp (refuseIf_eq_ok.mp hsame)
  rw [List.length_map, List.length_map] at hsame
  exact ⟨SymShape.demandRank_ofShape hrank, hsame.symm, rfl⟩

theorem WeightedWindow.splitIndex_of_lt {index : Index} {shape : Shape}
    (h : List.Forall₂ (· < ·) index shape) (hrank : 2 ≤ shape.length) : ∃ n c place,
      (splitIndex index : Outcome ε (Nat × Nat × Index)) = .ok (n, c, place) ∧
        List.Forall₂ (· < ·) place (shape.drop 2) := by
  obtain _ | ⟨_, hrest⟩ := h
  · simp at hrank
  obtain _ | ⟨_, hrest⟩ := hrest
  · simp at hrank
  exact ⟨_, _, _, rfl, hrest⟩

namespace Conv

open WeightedWindow Window

/-- The sizes of the output are those that the rule computes along each dimension. -/
theorem sizes_of_accepts {op : Conv} {weight : Value} (h : (Operator.conv op).Accepts inputs [out])
    (hx : Inputs.find? inputs 0 = some x) (hw : Inputs.find? inputs 1 = some weight) :
    3 ≤ x.shape.length ∧ weight.shape.length = x.shape.length ∧ out.shape.length = x.shape.length ∧
      op.groups ≠ 0 ∧ ∃ strides dilations,
        perDimension op.strides (x.shape.drop 2).length .strides = .ok strides ∧
          perDimension op.dilations (x.shape.drop 2).length .dilations = .ok dilations ∧
            ∀ k < (x.shape.drop 2).length, (op.padding.dim k (x.shape.drop 2).length >>= fun d =>
              outputSize (.ofSize ((x.shape.drop 2).getD k 0))
              (.ofSize ((weight.shape.drop 2).getD k 0))
                (strides.getD k 1) (dilations.getD k 1) d false) =
                  .ok (.ofSize ((out.shape.drop 2).getD k 0)) := by
  obtain ⟨w, hinfer, -, hshape⟩ := h.infer_single rfl
  simp only [Operator.infer, infer_eq, Operator.demand_told _ hx, Operator.demand_told _ hw,
    ok_bind] at hinfer
  obtain ⟨_, -, hinfer⟩ := bind_eq_ok.mp hinfer
  obtain ⟨_, hgroups, hinfer⟩ := bind_eq_ok.mp hinfer
  obtain ⟨o, hdims, hinfer⟩ := bind_eq_ok.mp hinfer
  obtain ⟨hrank, hlenWeight, rfl⟩ := dims_told hdims
  obtain ⟨strides, hstrides, hinfer⟩ := bind_eq_ok.mp hinfer
  obtain ⟨dilations, hdilations, hinfer⟩ := bind_eq_ok.mp hinfer
  obtain ⟨_, -, hinfer⟩ := bind_eq_ok.mp hinfer
  obtain ⟨_, -, hinfer⟩ := bind_eq_ok.mp hinfer
  obtain ⟨_, -, hinfer⟩ := bind_eq_ok.mp hinfer
  obtain ⟨sizes, hsizes, hinfer⟩ := bind_eq_ok.mp hinfer
  cases hinfer
  obtain ⟨hlenOut, hrule⟩ := @sizes_of_rule _ _ [_, _] _ _ hsizes rfl (SymShape.ranked.inj hshape)
  have hlen : (x.shape.map SymDim.ofSize).length - 2 = (x.shape.drop 2).length := by
    rw [List.length_map, List.length_drop]
  rw [hlen] at hstrides hdilations hlenOut hrule
  rw [List.length_drop] at hlenOut
  refine ⟨hrank, hlenWeight, by omega, refuseIf_eq_ok.mp hgroups, strides, dilations, hstrides,
    hdilations, fun k hk => ?_⟩
  have hkWeight : k < (weight.shape.drop 2).length := by
    rw [List.length_drop] at hk ⊢
    omega
  have hsize := hrule k hk
  rw [getD_ofSize hk, getD_ofSize hkWeight] at hsize
  exact hsize

theorem geometry_of_accepts {op : Conv} {weight : Value}
    (h : (Operator.conv op).Accepts inputs [out]) (hx : Inputs.find? inputs 0 = some x)
    (hw : Inputs.find? inputs 1 = some weight)
    (htame : Tame op.padding op.strides op.dilations (weight.shape.drop 2)) :
    2 ≤ weight.shape.length ∧ 2 ≤ out.shape.length ∧
      ∃ g, op.geometry x.shape weight.shape out.shape = .ok g ∧ g.groups ≠ 0 ∧
        (x.shape.drop 2).length = g.motions.length ∧
          Carry g.motions (out.shape.drop 2) (weight.shape.drop 2) := by
  obtain ⟨hrank, hlenWeight, hlenOut, hgroups, strides, dilations, hstrides, hdilations, hcount⟩ :=
    sizes_of_accepts h hx hw
  have hlenWindow : (weight.shape.drop 2).length = (x.shape.drop 2).length := by
    rw [List.length_drop, List.length_drop, hlenWeight]
  have hlenPlaces : (out.shape.drop 2).length = (x.shape.drop 2).length := by
    rw [List.length_drop, List.length_drop, hlenOut]
  obtain ⟨pads, hpads, hcarry, hlast⟩ := htame.exists_resolvePads hstrides hdilations
    (fun n hn => (h.fits_input hx).size_lt (List.mem_of_mem_drop hn))
    (fun n hn => h.fits_single.size_lt (List.mem_of_mem_drop hn))
    (fun n hn => (h.fits_input hw).size_lt (List.mem_of_mem_drop hn)) hlenPlaces hlenWindow hcount
  have hspatial : (spatialRank x.shape : Outcome OpError Nat) = .ok (x.shape.length - 2) :=
    if_pos (by omega)
  refine ⟨by omega, by omega, ⟨motions strides dilations pads, op.groups⟩, ?_,
    hgroups, hlast.length_eq, hcarry⟩
  rw [List.length_drop] at hstrides hdilations
  rw [geometry, hspatial, ok_bind, hstrides, hdilations]
  dsimp only [Outcome.mapError, ok_bind]
  rw [Outcome.demand, if_pos ⟨by omega, by omega⟩, ok_bind, hpads]
  rfl

theorem noFault_products {g : Geometry} {x weight : Tensor Float32} {places : List Nat}
    (hweight : weight.shape.Fits) (hrank : 2 ≤ weight.shape.length)
    (hsizes : (x.shape.drop 2).length = g.motions.length)
    (hcarry : Carry g.motions places (weight.shape.drop 2)) {place : Index}
    (hplace : List.Forall₂ (· < ·) place places) (n c group : Nat) :
    (products g x weight n c group place : Outcome ε (List Float32)).NoFault := by
  refine noFault_bind (Tensor.noFault_size (by omega)) fun channels _ => ?_
  rw [Layout.checkedAll_of_extent (hweight.drop 2).extent_lt_sizeLimit, ok_bind]
  refine noFault_bind (noFault_mapM fun e he => ?_) fun _ _ => noFault_ok _
  obtain ⟨j, -, he⟩ := List.mem_flatMap.mp he
  obtain ⟨k, hk, rfl⟩ := List.mem_map.mp he
  have hinside := noFault_inside (ε := ε) hcarry hsizes hplace (Index.lt_of_mem_all hk)
  refine noFault_bind hinside fun o _ => ?_
  cases o with
  | none => exact noFault_ok _
  | some p =>
    dsimp only
    split <;> exact noFault_ok _

theorem safe (op : Conv) (h : (Operator.conv op).Accepts inputs outputs)
    (htame : ∀ weight, Inputs.find? inputs 1 = some weight →
      Tame op.padding op.strides op.dilations (weight.shape.drop 2)) :
    Safe (op.prepare inputs outputs) := by
  refine safe_demand fun x hx => safe_demand fun weight hw => safe_single fun out hout => ?_
  subst hout
  obtain ⟨hrankWeight, hrankOut, g, hg, hgroups, hsizes, hcarry⟩ :=
    geometry_of_accepts h hx hw (htame weight hw)
  rw [hg]
  refine safe_ok (noFault_bind (noFault_typed? _) fun bias _ => ?_)
  refine noFault_floatOnly fun x' out' hx' hout' => ?_
  refine noFault_bind (noFault_typed _) fun weight' hweight' => ?_
  have hshape := shape_of_typed hweight'
  have hrank : 2 ≤ weight'.shape.length := hshape ▸ hrankWeight
  refine noFault_bind (Tensor.noFault_size (by omega)) fun _ _ => ?_
  refine noFault_bind (noFault_demand_iff.mpr hgroups) fun _ _ => ?_
  refine noFault_bind (Tensor.noFault_size (by omega)) fun count _ => ?_
  refine Tensor.noFault_mapIndexedM (hout' ▸ h.fits_single.extent_lt_sizeLimit)
    fun index old hindex => ?_
  rw [hout'] at hindex
  obtain ⟨n, c, place, hsplit, hplace⟩ := splitIndex_of_lt hindex hrankOut
  rw [hsplit, ok_bind]
  refine noFault_bind ?_ fun _ _ => noFault_ok _
  exact noFault_products (hshape ▸ h.fits_input hw) hrank (hx' ▸ hsizes) (hshape ▸ hcarry) hplace _
    _ _

end Conv

namespace Pool

open Window

theorem dims?_told {op : Operator} {i : Nat} {o : Option (List SymDim)}
    (h : dims? (op.told i x) = .ok o) : 3 ≤ x.shape.length ∧ o = some (x.shape.map .ofSize) := by
  obtain ⟨_, -, h⟩ := bind_eq_ok.mp h
  obtain ⟨_, hrank, h⟩ := bind_eq_ok.mp h
  cases h
  rw [Operator.shape_told] at hrank ⊢
  exact ⟨SymShape.demandRank_ofShape hrank, rfl⟩

/-- The geometry of windows fits the shapes of the input and the output, and the elements of a
window can be counted. -/
structure Geometry.Suits (g : Geometry) (x out : Shape) : Prop where
  kernel_lt : Shape.extent g.kernel < sizeLimit
  volume_lt : Shape.volume g.kernel < counterLimit
  stops : List.Forall₂ (fun n (m : Motion) => n + m.padStop < intLimit) (x.drop 2) g.motions
  carry : Carry g.motions (out.drop 2) g.kernel
  rank : 2 ≤ out.length

theorem noFault_fill {g : Geometry} {x' out' : Tensor Float32} (hg : g.Suits x'.shape out'.shape)
    (hout : out'.shape.Fits) (pooling : Pooling) :
    (fill pooling g x' out' : Outcome ε (Tensor Float32)).NoFault := by
  refine Tensor.noFault_mapIndexedM hout.extent_lt_sizeLimit fun index old hindex => ?_
  refine noFault_bind (noFault_demand_iff.mpr ?_) fun _ _ => ?_
  · exact hindex.length_eq ▸ hg.rank
  rw [Layout.checkedAll_of_extent hg.kernel_lt, ok_bind]
  refine noFault_bind (noFault_mapM fun k hk => ?_) fun places hplaces => ?_
  · exact noFault_place hg.carry hg.stops (List.forall₂_drop 2 hindex) (Index.lt_of_mem_all hk)
  · have hcount : places.length = Shape.volume g.kernel := by
      rw [← (mapM_eq_ok.mp hplaces).length_eq, Index.length_all]
    have hplaced : places.countP (· ≠ .outside) < counterLimit :=
      (List.countP_le_length.trans_eq hcount).trans_lt hg.volume_lt
    exact noFault_bind (noFault_demand_iff.mpr hplaced) fun _ _ => noFault_ok _

/-- Attributes of pooling for which positions can be computed, and the elements of a window
counted. -/
structure Tame (op : Pool) : Prop where
  window : Window.Tame op.padding op.strides [] op.kernel
  kernel_le : ∀ n ∈ op.kernel, n ≤ moderateLimit
  volume_lt : Shape.volume op.kernel < counterLimit

/-- The sizes of the output are those that the rule computes along each dimension. -/
theorem sizes_of_accepts {op : Pool} (h : (Operator.pool op).Accepts inputs [out])
    (hx : Inputs.find? inputs 0 = some x) : 3 ≤ x.shape.length ∧ out.shape.length = x.shape.length ∧
      op.kernel.length = (x.shape.drop 2).length ∧ (∀ n ∈ op.kernel, 0 < n) ∧ ∃ strides,
        perDimension op.strides (x.shape.drop 2).length .strides = .ok strides ∧
          ∀ k < (x.shape.drop 2).length, (op.padding.dim k (x.shape.drop 2).length >>= fun d =>
            outputSize (.ofSize ((x.shape.drop 2).getD k 0)) (.ofSize (op.kernel.getD k 0))
              (strides.getD k 1) ((List.replicate (x.shape.drop 2).length 1).getD k 1) d
              op.ceilMode) =
                .ok (.ofSize ((out.shape.drop 2).getD k 0)) := by
  obtain ⟨w, hinfer, -, hshape⟩ := h.infer_single rfl
  simp only [Operator.infer, infer, Operator.demand_told _ hx, ok_bind] at hinfer
  obtain ⟨o, hdims, hinfer⟩ := bind_eq_ok.mp hinfer
  obtain ⟨hrank, rfl⟩ := dims?_told hdims
  obtain ⟨_, hkernel, hinfer⟩ := bind_eq_ok.mp hinfer
  obtain ⟨strides, hstrides, hinfer⟩ := bind_eq_ok.mp hinfer
  obtain ⟨sizes, hsizes, hinfer⟩ := bind_eq_ok.mp hinfer
  cases hinfer
  have hkernel := refuseIf_eq_ok.mp hkernel
  rw [not_or, not_not, List.contains_iff_mem] at hkernel
  have hfront : ((x.shape.map SymDim.ofSize).take 2).length = 2 := by
    rw [List.length_take, List.length_map]
    omega
  obtain ⟨hlenOut, hrule⟩ := sizes_of_rule hsizes hfront (SymShape.ranked.inj hshape)
  have hlen : (x.shape.map SymDim.ofSize).length - 2 = (x.shape.drop 2).length := by
    rw [List.length_map, List.length_drop]
  rw [hlen] at hstrides hkernel hlenOut hrule
  rw [List.length_drop] at hlenOut
  refine ⟨hrank, by omega, hkernel.1, fun n hn => Nat.pos_of_ne_zero fun h => hkernel.2 (h ▸ hn),
    strides, hstrides, fun k hk => ?_⟩
  have hsize := hrule k hk
  have hentry : op.kernel.getD k 1 = op.kernel.getD k 0 := by
    simp [List.getD_eq_getElem?_getD, hkernel.1 ▸ hk]
  rw [getD_ofSize hk, hentry] at hsize
  rw [getD_replicate_one]
  exact hsize

theorem geometry_of_accepts {op : Pool} (h : (Operator.pool op).Accepts inputs [out])
    (hx : Inputs.find? inputs 0 = some x) (htame : op.Tame) :
    ∃ g, op.geometry x.shape out.shape = .ok g ∧ g.Suits x.shape out.shape := by
  obtain ⟨hrank, hlenOut, hlenKernel, hpos, strides, hstrides, hcount⟩ := sizes_of_accepts h hx
  have hlenPlaces : (out.shape.drop 2).length = (x.shape.drop 2).length := by
    rw [List.length_drop, List.length_drop, hlenOut]
  have hdilations : perDimension [] (x.shape.drop 2).length .dilations =
      .ok (List.replicate (x.shape.drop 2).length 1) := rfl
  obtain ⟨pads, hpads, hcarry, hstops⟩ := htame.window.exists_resolvePads hstrides
    hdilations (fun n hn => (h.fits_input hx).size_lt (List.mem_of_mem_drop hn))
    (fun n hn => h.fits_single.size_lt (List.mem_of_mem_drop hn))
    (fun n hn => (htame.kernel_le n hn).trans_lt (by decide)) hlenPlaces hlenKernel hcount
  have hlen : (x.shape.drop 2).length = x.shape.length - 2 := List.length_drop
  have hspatial : (spatialRank x.shape : Outcome OpError Nat) = .ok (x.shape.length - 2) :=
    if_pos (by omega)
  refine ⟨⟨op.kernel, motions strides (List.replicate (x.shape.drop 2).length 1) pads,
    op.countPads⟩,
    ?_, ⟨?_, htame.volume_lt, hstops, hcarry, by omega⟩⟩
  · rw [geometry, hspatial, ok_bind, ← hlen, hstrides]
    dsimp only [Outcome.mapError, ok_bind]
    rw [Outcome.demand, if_pos (by omega), ok_bind, hpads]
    rfl
  · exact (Shape.extent_eq_volume hpos).trans_lt (htame.volume_lt.trans (by decide))

theorem safe (op : Pool) (h : (Operator.pool op).Accepts inputs outputs) (htame : op.Tame) :
    Safe (op.prepare inputs outputs) := by
  refine safe_demand fun x hx => safe_single fun out hout => ?_
  subst hout
  obtain ⟨g, hg, hsuits⟩ := geometry_of_accepts h hx htame
  rw [hg]
  refine safe_ok (noFault_floatOnly fun x' out' hx' hout' => ?_)
  exact noFault_fill (hx' ▸ hout' ▸ hsuits) (hout' ▸ h.fits_single) op.pooling

end Pool

namespace GlobalPool

open Window

theorem rank_of_accepts {op : GlobalPool} (h : (Operator.globalPool op).Accepts inputs outputs)
    (hx : Inputs.find? inputs 0 = some x) : 3 ≤ x.shape.length ∧ ∀ out, outputs = [out] →
      out.shape = x.shape.take 2 ++ List.replicate (x.shape.length - 2) 1 := by
  obtain ⟨ws, hws, houtputs⟩ := h.infer rfl
  simp only [Operator.infer, infer, Operator.demand_told _ hx, ok_bind] at hws
  obtain ⟨o, hdims, hws⟩ := bind_eq_ok.mp hws
  obtain ⟨hrank, rfl⟩ := Pool.dims?_told hdims
  cases hws
  refine ⟨hrank, ?_⟩
  rintro out rfl
  obtain ⟨⟨-, hshape⟩, -⟩ := List.forall₂_cons.mp houtputs
  refine h.shape_of_sizes (fun n hn => ?_) ?_ hshape
  · rcases List.mem_append.mp hn with hn | hn
    · exact (h.fits_input hx).lt_sizeLimit (List.mem_of_mem_take hn)
    · rw [List.eq_of_mem_replicate hn]
      decide
  · have hone : SymDim.size 1 = .ofSize 1 := rfl
    simp [SymShape.ofShape, List.map_take, hone]

theorem suits_geometry {shape out : Shape} (hshape : shape.Fits) (hrank : 3 ≤ shape.length)
    (hvolume : Shape.volume (shape.drop 2) < counterLimit)
    (hout : out = shape.take 2 ++ List.replicate (shape.length - 2) 1) :
    ∃ g, geometry shape = .ok g ∧ g.Suits shape out := by
  have hspatial : (spatialRank shape : Outcome OpError Nat) = .ok (shape.length - 2) :=
    if_pos (by omega)
  have hlen : (shape.drop 2).length = shape.length - 2 := List.length_drop
  have hplaces : out.drop 2 = List.replicate (shape.length - 2) 1 := by
    have htake : (shape.take 2).length = 2 := by
      rw [List.length_take]
      omega
    rw [hout, List.drop_left' htake]
  have hones : (List.replicate (shape.length - 2) 1).length = shape.length - 2 :=
    List.length_replicate
  have hzeros : (List.replicate (shape.length - 2) (0, 0)).length = shape.length - 2 :=
    List.length_replicate
  refine ⟨⟨shape.drop 2, motions (List.replicate (shape.length - 2) 1)
    (List.replicate (shape.length - 2) 1) (List.replicate (shape.length - 2) (0, 0)), false⟩, ?_,
      ⟨(hshape.drop 2).extent_lt_sizeLimit, hvolume, ?_, ?_, ?_⟩⟩
  · rw [geometry, hspatial]
    rfl
  · refine List.forall₂_iff_get.mpr ⟨?_, fun k hk hk' => ?_⟩
    · rw [length_motions hones hones hzeros, hlen]
    · have hsize := (hshape.drop 2).size_lt (List.get_mem (shape.drop 2) ⟨k, hk⟩)
      rw [List.get_eq_getElem, List.get_eq_getElem, getD_motions hones hones hzeros hk'
        (by rw [hzeros]; exact hlen ▸ hk), List.getElem_replicate]
      exact hsize.trans (by decide)
  · rw [hplaces]
    refine carry_motions hones hones hones hlen ?_
    refine List.forall₂_iff_get.mpr ⟨by simp, fun k hk hk' => ?_⟩
    rw [List.length_range] at hk
    have hsize := (Shape.getD_le_extent (shape.drop 2) k).trans_lt (hshape.drop 2).extent_lt
    unfold countLimit at hsize
    simp only [List.get_eq_getElem, List.getElem_range, List.getElem_replicate, getD_replicate_one]
    have hplace : (List.replicate (shape.length - 2) 1).getD k 0 = 1 := by
      simp [List.getD_eq_getElem?_getD, hk]
    rw [hplace]
    refine Motion.carries_of_last (by decide) fun _ _ => ?_
    unfold intLimit
    dsimp only
    omega
  · rw [hout, List.length_append, List.length_take, List.length_replicate]
    omega

theorem safe (op : GlobalPool) (h : (Operator.globalPool op).Accepts inputs outputs)
    (htame : ∀ x, Inputs.find? inputs 0 = some x → Shape.volume (x.shape.drop 2) < counterLimit) :
    Safe (op.prepare inputs outputs) := by
  refine safe_demand fun x hx => ?_
  obtain ⟨hrank, hshape⟩ := rank_of_accepts h hx
  have hspatial : (spatialRank x.shape : Outcome OpError Nat) = .ok (x.shape.length - 2) :=
    if_pos (by omega)
  refine safe_bind ?_ fun g hg => safe_single fun out hout => safe_ok ?_
  · rw [geometry, hspatial]
    exact noFault_ok _
  · subst hout
    obtain ⟨g', hg', hsuits⟩ := suits_geometry (h.fits_input hx) hrank (htame x hx)
      (hshape out rfl)
    cases hg.symm.trans hg'
    refine noFault_floatOnly fun x' out' hx' hout' => ?_
    exact Pool.noFault_fill (hx' ▸ hout' ▸ hsuits) (hout' ▸ h.fits_single) op.pooling

end GlobalPool

namespace ConvTranspose

open WeightedWindow Window

/-- The last element of the window at the last place stands on a position that the rule counts. -/
theorem lt_of_spreadSize {n size stride dilation extra start stop : Nat} {m : Int64}
    (hn : 0 < n ∧ n < intLimit) (hsize : 0 < size ∧ size < intLimit) (hstride : stride < intLimit)
    (hdilation : dilation < intLimit)
    (h : spreadSize (.ofSize n) (.ofSize size) stride dilation extra (.fixed start stop) =
      .ok (.size m)) : (n - 1) * stride + (size - 1) * dilation < intLimit := by
  have hlimit := intLimit_eq
  obtain ⟨pads, -, h⟩ := bind_eq_ok.mp h
  obtain ⟨a, _, ha, -, -⟩ := eq_size_of_sub rfl (Outcome.ok.inj h)
  obtain ⟨b, hb, -⟩ := eq_size_of_add ha
  obtain ⟨moved, covered, hmoved, hcovered, hsum⟩ := sizes_of_add hb
  rw [ofSize_sub_one hn] at hmoved
  have hmoved := SymDim.toInt_of_mul hmoved
  have hcovered := toInt_of_span hsize hdilation hcovered
  have htop := (fitsInt_toInt b).2
  unfold intLimit at hn
  rw [toInt_intOfSize (by omega), toInt_intOfSize hstride] at hmoved
  rw [hsum, hmoved, hcovered] at htop
  have htop : (n - 1) * stride + ((size - 1) * dilation + 1) ≤ 9223372036854775807 := by
    exact_mod_cast htop
  unfold intLimit
  omega

/-- Pads that follow the windows are those of a window that moves over the output. -/
theorem samePads_eq {n places size stride dilation : Nat} (hn : 0 < n) :
    (samePads n places size stride dilation : Outcome ε (Nat × Nat)) =
      Window.samePads places n size stride dilation := by
  have hless : (checkSub n 1 : Outcome ε Nat) = .ok (n - 1) := if_pos hn
  rw [samePads, Window.samePads, hless]
  rfl

/-- The pads that go with the rule make a motion that carries the window. -/
theorem exists_pads {n places size stride dilation extra : Nat} {d : DimPadding}
    (hn : n < countLimit) (hplaces : places < countLimit) (hsize : size < intLimit)
    (hstride : 0 < stride ∧ stride ≤ moderateLimit) (hdilation : dilation < intLimit)
    (hd : d.Moderate)
    (hsame : d = .same → 0 < size ∧ (size - 1) * dilation < 4611686018427387904)
    (h : spatialSize (.ofSize n) (.ofSize size) stride dilation extra d = .ok (.ofSize places)) :
    ∃ p : Nat × Nat, (dimPads (samePads n places size stride dilation) d : Outcome ε (Nat × Nat)) =
      .ok p ∧ Motion.Carries ⟨stride, dilation, p.1, p.2⟩ n size := by
  obtain ⟨count, hcount, h⟩ := bind_eq_ok.mp h
  obtain ⟨_, hpositive, h⟩ := bind_eq_ok.mp h
  cases h
  have hlimit : countLimit ≤ intLimit := by decide
  cases d with
  | same =>
    obtain ⟨hpos, hspread⟩ := hsame rfl
    have hprod := SymDim.toInt_of_mul (Outcome.ok.inj hcount)
    have hpositive : ¬intOfSize places < 1 := by
      simpa [SymDim.ofSize, SymDim.value?] using refuseIf_eq_ok.mp hpositive
    have hone : (1 : Int64).toInt = 1 := rfl
    rw [Int64.lt_iff_toInt_lt, hone] at hpositive
    rw [toInt_intOfSize (hplaces.trans (by decide)), toInt_intOfSize (hn.trans (by decide)),
      toInt_intOfSize_of_moderate hstride.2] at hprod
    rw [toInt_intOfSize (hplaces.trans (by decide))] at hpositive
    have hprod : places = n * stride := by exact_mod_cast hprod
    have hpos' : 0 < n := Nat.pos_of_ne_zero fun hzero => by simp [hzero] at hprod; omega
    have hmoved : (n - 1) * stride < countLimit := by
      rw [Nat.sub_mul]
      omega
    unfold countLimit at hmoved
    have hreach : (n - 1) * stride + ((size - 1) * dilation + 1) < sizeLimit := by
      unfold sizeLimit
      omega
    refine ⟨_, (samePads_eq hpos').trans (Window.samePads_eq_ok hpos hreach),
      Motion.carries_of_last ?_ fun _ _ => ?_⟩ <;> unfold intLimit <;> dsimp only <;> omega
  | fixed start stop =>
    refine ⟨(start, stop), rfl, Motion.carries_of_last ?_ fun hpos hpos' => ?_⟩
    · exact (hd start stop rfl).1.trans_lt (by decide)
    · exact lt_of_spreadSize ⟨hpos, hn.trans_le hlimit⟩ ⟨hpos', hsize⟩
        (hstride.2.trans_lt (by decide)) hdilation hcount

/-- The sizes of the output are those that the rule computes along each dimension. -/
theorem sizes_of_accepts {op : ConvTranspose} {weight : Value}
    (h : (Operator.convTranspose op).Accepts inputs [out]) (hx : Inputs.find? inputs 0 = some x)
    (hw : Inputs.find? inputs 1 = some weight) : 3 ≤ x.shape.length ∧
      weight.shape.length = x.shape.length ∧ out.shape.length = x.shape.length ∧ op.groups ≠ 0 ∧
        ∃ (strides dilations : List Nat) (extra : Nat → Nat),
          perDimension op.strides (x.shape.length - 2) .strides = .ok strides ∧
            perDimension op.dilations (x.shape.length - 2) .dilations = .ok dilations ∧
              ∀ k < x.shape.length - 2, (op.padding.dim k (x.shape.length - 2) >>= fun d =>
                spatialSize (.ofSize ((x.shape.drop 2).getD k 0))
                  (.ofSize ((weight.shape.drop 2).getD k 0)) (strides.getD k 1) (dilations.getD k 1)
                    (extra k) d) = .ok (.ofSize ((out.shape.drop 2).getD k 0)) := by
  obtain ⟨w, hinfer, -, hshape⟩ := h.infer_single rfl
  simp only [Operator.infer, infer_eq, Operator.demand_told _ hx, Operator.demand_told _ hw,
    ok_bind] at hinfer
  obtain ⟨_, -, hinfer⟩ := bind_eq_ok.mp hinfer
  obtain ⟨_, hgroups, hinfer⟩ := bind_eq_ok.mp hinfer
  obtain ⟨o, hdims, hinfer⟩ := bind_eq_ok.mp hinfer
  obtain ⟨hrank, hlenWeight, rfl⟩ := dims_told hdims
  obtain ⟨strides, hstrides, hinfer⟩ := bind_eq_ok.mp hinfer
  obtain ⟨dilations, hdilations, hinfer⟩ := bind_eq_ok.mp hinfer
  obtain ⟨extra, -, hinfer⟩ := bind_eq_ok.mp hinfer
  obtain ⟨_, -, hinfer⟩ := bind_eq_ok.mp hinfer
  obtain ⟨_, -, hinfer⟩ := bind_eq_ok.mp hinfer
  obtain ⟨sizes, hsizes, hinfer⟩ := bind_eq_ok.mp hinfer
  cases hinfer
  obtain ⟨hlenOut, hrule⟩ := @sizes_of_rule _ _ [_, _] _ _ hsizes rfl (SymShape.ranked.inj hshape)
  rw [List.length_map] at hstrides hdilations hlenOut hrule
  refine ⟨hrank, hlenWeight, by omega, refuseIf_eq_ok.mp hgroups, strides, dilations,
    fun k => extra.getD k 0, hstrides, hdilations, fun k hk => ?_⟩
  have hkX : k < (x.shape.drop 2).length := by rwa [List.length_drop]
  have hkWeight : k < (weight.shape.drop 2).length := by rwa [List.length_drop, hlenWeight]
  have hsize := hrule k hk
  rw [getD_ofSize hkX, getD_ofSize hkWeight] at hsize
  exact hsize

/-- The pads that the kernel resolves keep the windows inside the output. -/
theorem exists_allPads {op : ConvTranspose} {weight : Value}
    (h : (Operator.convTranspose op).Accepts inputs [out]) (hx : Inputs.find? inputs 0 = some x)
    (hw : Inputs.find? inputs 1 = some weight)
    (htame : Tame op.padding op.strides op.dilations (weight.shape.drop 2))
    (hlenWeight : weight.shape.length = x.shape.length)
    (hlenOut : out.shape.length = x.shape.length) {strides dilations : List Nat} {extra : Nat → Nat}
    (hstrides : perDimension op.strides (x.shape.length - 2) .strides = .ok strides)
    (hdilations : perDimension op.dilations (x.shape.length - 2) .dilations = .ok dilations)
    (hrule : ∀ k < x.shape.length - 2, (op.padding.dim k (x.shape.length - 2) >>= fun d =>
      spatialSize (.ofSize ((x.shape.drop 2).getD k 0)) (.ofSize ((weight.shape.drop 2).getD k 0))
        (strides.getD k 1) (dilations.getD k 1) (extra k) d) =
          .ok (.ofSize ((out.shape.drop 2).getD k 0))) :
    ∃ pads, ((List.range (x.shape.length - 2)).mapM fun k => do
      match ← (op.padding.dim k (x.shape.length - 2)).mapError OpError.ofRule with
      | .fixed start stop => return (start, stop)
      | .same =>
        let window ← .ofOption weight.shape[2 + k]?
        let output ← .ofOption out.shape[2 + k]?
        samePads (x.shape.getD (2 + k) 0) output window (strides.getD k 1) (dilations.getD k 1)) =
          .ok pads ∧ List.Forall₂ (fun k (p : Nat × Nat) => Motion.Carries
            ⟨strides.getD k 1, dilations.getD k 1, p.1, p.2⟩ ((x.shape.drop 2).getD k 0)
              ((weight.shape.drop 2).getD k 0)) (List.range (x.shape.length - 2)) pads := by
  refine exists_mapM fun k hk => ?_
  rw [List.mem_range] at hk
  have hlen : ∀ v : Value, v.shape.length = x.shape.length → k < (v.shape.drop 2).length := by
    intro v hv
    rwa [List.length_drop, hv]
  obtain ⟨hinside, hn⟩ := getD_mem (hlen x rfl)
  obtain ⟨hcovered, hwindow⟩ := getD_mem (hlen weight hlenWeight)
  obtain ⟨houtside, hplaces⟩ := getD_mem (hlen out hlenOut)
  rw [List.getElem?_drop] at hn hwindow hplaces
  have hcovered' := (h.fits_input hw).size_lt (List.mem_of_mem_drop hcovered)
  obtain ⟨d, hd, hsize⟩ := bind_eq_ok.mp (hrule k hk)
  obtain ⟨hstride, hdilation, hsame⟩ := htame.bounds hstrides hdilations hd hcovered hcovered'
  obtain ⟨p, hp, hcarries⟩ := exists_pads (ε := OpError)
    ((h.fits_input hx).size_lt (List.mem_of_mem_drop hinside))
    (h.fits_single.size_lt (List.mem_of_mem_drop houtside)) (hcovered'.trans (by decide)) hstride
    hdilation (htame.moderate.dim hd) hsame hsize
  refine ⟨p, ?_, hcarries⟩
  rw [hd]
  cases d with
  | fixed start stop => exact hp
  | same =>
    have hsize : x.shape.getD (2 + k) 0 = (x.shape.drop 2).getD k 0 := by
      rw [List.getD_eq_getElem?_getD, hn, Option.getD_some]
    rw [hwindow, hplaces, hsize]
    exact hp

theorem geometry_of_accepts {op : ConvTranspose} {weight : Value}
    (h : (Operator.convTranspose op).Accepts inputs [out])
    (hx : Inputs.find? inputs 0 = some x) (hw : Inputs.find? inputs 1 = some weight)
    (htame : Tame op.padding op.strides op.dilations (weight.shape.drop 2)) :
    2 ≤ x.shape.length ∧ 2 ≤ weight.shape.length ∧ 2 ≤ out.shape.length ∧
      ∃ g, op.geometry x.shape weight.shape out.shape = .ok g ∧ g.groups ≠ 0 ∧
        (out.shape.drop 2).length = g.motions.length ∧
          Carry g.motions (x.shape.drop 2) (weight.shape.drop 2) := by
  obtain ⟨hrank, hlenWeight, hlenOut, hgroups, strides, dilations, extra, hstrides, hdilations,
      hrule⟩ :=
    sizes_of_accepts h hx hw
  obtain ⟨pads, hok, hall⟩ :=
    exists_allPads h hx hw htame hlenWeight hlenOut hstrides hdilations hrule
  have hlen : ∀ v : Value, v.shape.length = x.shape.length →
      (v.shape.drop 2).length = x.shape.length - 2 := by
    intro v hv
    rw [List.length_drop, hv]
  have hlenPads : pads.length = x.shape.length - 2 := by rw [← hall.length_eq, List.length_range]
  obtain ⟨hlenStrides, -⟩ := perDimension_eq_ok hstrides
  obtain ⟨hlenDilations, -⟩ := perDimension_eq_ok hdilations
  have hspatial : (spatialRank x.shape : Outcome OpError Nat) = .ok (x.shape.length - 2) :=
    if_pos (by omega)
  refine ⟨by omega, by omega, by omega, ⟨motions strides dilations pads, op.groups⟩, ?_, hgroups,
    ?_, carry_motions hlenStrides hlenDilations (hlen x rfl) (hlen weight hlenWeight) hall⟩
  · rw [geometry, hspatial, ok_bind, hstrides, hdilations]
    refine bind_eq_ok.mpr ⟨strides, rfl, bind_eq_ok.mpr ⟨dilations, rfl, ?_⟩⟩
    exact bind_eq_ok.mpr ⟨pads, hok, rfl⟩
  · rw [length_motions hlenStrides hlenDilations hlenPads, hlen out hlenOut]

theorem noFault_contributions {g : Geometry} {weight : Tensor Float32} {out places : List Nat}
    (hweight : weight.shape.Fits) (hrank : 2 ≤ weight.shape.length) (hrankOut : 2 ≤ out.length)
    (hsizes : (out.drop 2).length = g.motions.length)
    (hcarry : Carry g.motions (places.drop 2) (weight.shape.drop 2)) (hplaces : 2 ≤ places.length)
    {index : Index} (hindex : List.Forall₂ (· < ·) index places) (perGroup : Nat) (a : Float32) :
    (contributions g weight out perGroup index a : Outcome ε (List (Index × Float32))).NoFault := by
  obtain ⟨n, c, place, hsplit, hplace⟩ := splitIndex_of_lt (ε := ε) hindex hplaces
  rw [contributions, hsplit, ok_bind]
  refine noFault_bind (noFault_demand_iff.mpr (by omega)) fun _ _ => ?_
  refine noFault_bind (Tensor.noFault_size (by omega)) fun channels _ => ?_
  rw [Layout.checkedAll_of_extent (hweight.drop 2).extent_lt_sizeLimit, ok_bind]
  refine noFault_bind (noFault_mapM fun j _ => ?_) fun _ _ => noFault_ok _
  refine noFault_bind (noFault_demand_iff.mpr (by omega)) fun _ _ => noFault_mapM fun k hk => ?_
  have hinside := noFault_inside (ε := ε) hcarry hsizes hplace (Index.lt_of_mem_all hk)
  refine noFault_bind hinside fun o _ => ?_
  cases o <;> exact noFault_ok _

theorem safe (op : ConvTranspose) (h : (Operator.convTranspose op).Accepts inputs outputs)
    (htame : ∀ weight, Inputs.find? inputs 1 = some weight →
      Tame op.padding op.strides op.dilations (weight.shape.drop 2)) :
    Safe (op.prepare inputs outputs) := by
  refine safe_demand fun x hx => safe_demand fun weight hw => safe_single fun out hout => ?_
  subst hout
  obtain ⟨hrankX, hrankWeight, hrankOut, g, hg, hgroups, hsizes, hcarry⟩ :=
    geometry_of_accepts h hx hw (htame weight hw)
  rw [hg]
  refine safe_ok (noFault_bind (noFault_typed? _) fun bias _ => ?_)
  refine noFault_floatOnly fun x' out' hx' hout' => ?_
  refine noFault_bind (noFault_typed _) fun weight' hweight' => ?_
  have hshape := shape_of_typed hweight'
  have hrank : 2 ≤ weight'.shape.length := hshape ▸ hrankWeight
  refine noFault_bind (noFault_demand_iff.mpr hgroups) fun _ _ => ?_
  refine noFault_bind (Tensor.noFault_size (by omega)) fun count _ => ?_
  refine noFault_bind (noFault_demand_iff.mpr hrank) fun _ _ => ?_
  refine noFault_bind (Tensor.noFault_mapIndexedM (hout' ▸ h.fits_single.extent_lt_sizeLimit)
    fun index old hindex => ?_) fun biased hbiased => ?_
  · obtain ⟨n, c, place, hsplit, -⟩ := splitIndex_of_lt hindex (hout' ▸ hrankOut)
    rw [hsplit]
    exact noFault_ok _
  rw [hx', Layout.checkedAll_of_extent (h.fits_input hx).extent_lt_sizeLimit, ok_bind]
  refine noFault_bind (noFault_mapM fun e he => ?_) fun _ _ => noFault_ok _
  have hkeep : biased.shape = out.shape :=
    (Tensor.keepsShape_mapIndexedM _ _ _ hbiased).trans hout'
  rw [← hkeep] at hrankOut hsizes
  exact noFault_contributions (hshape ▸ h.fits_input hw) hrank hrankOut hsizes (hshape ▸ hcarry)
    hrankX
    (Index.lt_of_mem_all (List.of_mem_zip he).1) _ _

end ConvTranspose

end TensorGraph
