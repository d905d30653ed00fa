import TensorGraph.Proofs.Kernels.Operators
import TensorGraph.Proofs.Safety.Windows

/-! Padding that follows the sizes gives a window as many places as the input has strides, rounded
up. The pads that it is resolved to, listed as they are, give it the same places, also where a
stride is longer than the window and nothing is padded. -/

namespace TensorGraph

open Outcome

variable {ε : Type}

namespace Padding

theorem dim_listed {pads : List (Nat × Nat)} {p : Nat × Nat} {k rank : Nat}
    (hrank : pads.length = rank)
    (hp : pads[k]? = some p) : (listed pads).dim k rank = .ok (.fixed p.1 p.2) := by
  have hlt : k < pads.length := (List.getElem?_eq_some_iff.mp hp).1
  have hstart : (pads.map Prod.fst ++ pads.map Prod.snd).getD k 0 = p.1 := by
    rw [List.getD_eq_getElem?_getD, List.getElem?_append_left (by rwa [List.length_map]),
      List.getElem?_map, hp]
    rfl
  have hstop : (pads.map Prod.fst ++ pads.map Prod.snd).getD (rank + k) 0 = p.2 := by
    rw [List.getD_eq_getElem?_getD, List.getElem?_append_right (by simp [hrank]), List.length_map,
      hrank, Nat.add_sub_cancel_left, List.getElem?_map, hp]
    rfl
  have hcount : ¬(pads.map Prod.fst ++ pads.map Prod.snd).length ≠ rank * 2 := by
    rw [List.length_append, List.length_map, List.length_map]
    omega
  obtain _ | ⟨first, rest⟩ := pads
  · cases hlt
  · rw [← hstart, ← hstop]
    exact bind_eq_ok.mpr ⟨(), refuseIf_neg hcount, rfl⟩

end Padding

namespace Window

section Dimension

variable {n size stride dilation : Nat}

/-- The number of strides that an input has, rounded up. -/
def places (n stride : Nat) : Nat := (n + stride - 1) / stride

def lack (n size stride dilation : Nat) : Nat :=
  (places n stride - 1) * stride + ((size - 1) * dilation + 1) - n

/-- Whether a window moves over an input that is not empty without reaching beyond 63 bits. -/
structure Tractable (n size stride dilation : Nat) : Prop where
  input_bounds : 0 < n ∧ n < intLimit
  size_pos : 0 < size
  stride_bounds : 0 < stride ∧ stride < intLimit
  dilation_pos : 0 < dilation
  reach : (places n stride - 1) * stride + ((size - 1) * dilation + 1) < intLimit

namespace Tractable

theorem places_bounds (h : Tractable n size stride dilation) :
    0 < places n stride ∧ places n stride ≤ n ∧ (places n stride - 1) * stride < n ∧
      n ≤ (places n stride - 1) * stride + stride := by
  have hinput := h.input_bounds.1
  obtain ⟨hle, hlt⟩ := ceil_bounds n h.stride_bounds.1
  rw [← places] at hle hlt
  have hpos : 0 < places n stride := by
    by_contra hzero
    rw [Nat.eq_zero_of_not_pos hzero, Nat.zero_mul] at hle
    omega
  have hlast : (places n stride - 1) * stride + stride = places n stride * stride := by
    rw [Nat.sub_one_mul]
    have := Nat.le_mul_of_pos_left stride hpos
    omega
  have hless := Nat.le_mul_of_pos_right (places n stride - 1) h.stride_bounds.1
  omega

theorem size_lt (h : Tractable n size stride dilation) : size < intLimit := by
  have hless := Nat.le_mul_of_pos_right (size - 1) h.dilation_pos
  have hreach := h.reach
  have hpos := h.size_pos
  omega

/-- With the elements it lacks, the input has room for just as many steps. -/
theorem room_div (h : Tractable n size stride dilation) :
    (n + lack n size stride dilation - ((size - 1) * dilation + 1)) / stride + 1 =
      places n stride := by
  obtain ⟨hpos, -, hlast, hnext⟩ := h.places_bounds
  have hsteps : (n + lack n size stride dilation - ((size - 1) * dilation + 1)) / stride =
      places n stride - 1 := by
    refine Nat.div_eq_of_lt_le ?_ ?_
    · unfold lack
      omega
    · rw [Nat.add_mul, Nat.one_mul]
      unfold lack
      omega
  rw [hsteps]
  omega

theorem padded_lt (h : Tractable n size stride dilation) :
    (size - 1) * dilation + 1 ≤ n + lack n size stride dilation ∧
      n + lack n size stride dilation < intLimit := by
  have hinput := h.input_bounds
  have hreach := h.reach
  unfold lack
  omega

end Tractable

theorem outputSize_of_placeCount {input w : SymDim} {d : DimPadding} {ceil : Bool} {count : Nat}
    (hcount : 0 < count ∧ count < intLimit)
    (h : (placeCount input w stride dilation d ceil : Outcome RuleError SymDim) =
      .ok (.ofSize count)) :
    outputSize input w stride dilation d ceil = .ok (.ofSize count) := by
  have hone : (1 : Int64).toInt = 1 := rfl
  have hpos : ¬((SymDim.ofSize count).value?.any (· < 1) = true) := by
    have hint := toInt_intOfSize hcount.2
    simp only [SymDim.ofSize, SymDim.value?, Option.any_some, decide_eq_true_eq,
      Int64.lt_iff_toInt_lt, hone]
    omega
  rw [outputSize, h, ok_bind, refuseIf_neg hpos, ok_bind, pure_eq]

theorem outputSize_same (h : Tractable n size stride dilation) (w : SymDim) (ceil : Bool) :
    outputSize (.ofSize n) w stride dilation .same ceil = .ok (.ofSize (places n stride)) := by
  obtain ⟨hpos, hle, -⟩ := h.places_bounds
  exact outputSize_of_placeCount ⟨hpos, hle.trans_lt h.input_bounds.2⟩
    (SymDim.ceilDiv_ofSize h.input_bounds.2 h.stride_bounds)

theorem span_ofSize (hsize : 0 < size ∧ size < intLimit)
    (hspan : (size - 1) * dilation + 1 < intLimit) :
    span (.ofSize size) dilation = .ofSize ((size - 1) * dilation + 1) := by
  rw [span, ofSize_sub_one hsize, SymDim.ofSize_mul ((Nat.lt_succ_self _).trans hspan)]
  exact SymDim.ofSize_add hspan

theorem outputSize_fixed {start stop : Nat} (h : Tractable n size stride dilation)
    (hsum : start + stop = lack n size stride dilation) :
    outputSize (.ofSize n) (.ofSize size) stride dilation (.fixed start stop) false =
      .ok (.ofSize (places n stride)) := by
  obtain ⟨hpos, hle, -⟩ := h.places_bounds
  obtain ⟨hcovered, hpadded⟩ := h.padded_lt
  have hpads : (checkSize (start + stop) : Outcome RuleError Nat) =
      .ok (lack n size stride dilation) := by
    rw [hsum]
    exact if_pos (((Nat.le_add_left _ n).trans_lt hpadded).trans (by decide))
  have hroom : SymDim.ofSize n + .ofSize (lack n size stride dilation) -
      span (.ofSize size) dilation =
      .ofSize (n + lack n size stride dilation - ((size - 1) * dilation + 1)) := by
    rw [SymDim.ofSize_add hpadded, span_ofSize ⟨h.size_pos, h.size_lt⟩ (hcovered.trans_lt hpadded)]
    exact SymDim.ofSize_sub hcovered hpadded
  have hsteps : (stepCount (.ofSize n) (.ofSize size) stride dilation start stop false :
      Outcome RuleError SymDim) = .ok (.ofSize (places n stride - 1)) := by
    rw [stepCount, hpads, ok_bind]
    dsimp only
    rw [hroom, if_neg Bool.false_ne_true,
      SymDim.floorDiv_ofSize ((Nat.sub_le _ _).trans_lt hpadded) h.stride_bounds, ← h.room_div,
      Nat.add_sub_cancel]
  refine outputSize_of_placeCount ⟨hpos, hle.trans_lt h.input_bounds.2⟩ ?_
  have hcount : SymDim.ofSize (places n stride - 1) + .ofSize 1 = .ofSize (places n stride) := by
    have hall := SymDim.ofSize_add (m := places n stride - 1) (n := 1)
      ((Nat.sub_add_cancel hpos).trans_lt (hle.trans_lt h.input_bounds.2))
    rwa [Nat.sub_add_cancel hpos] at hall
  rw [placeCount, hsteps, ok_bind]
  exact congrArg ok hcount

theorem samePads_places (h : Tractable n size stride dilation) :
    (samePads n (places n stride) size stride dilation : Outcome ε (Nat × Nat)) =
      .ok (lack n size stride dilation / 2,
        lack n size stride dilation - lack n size stride dilation / 2) :=
  samePads_eq_ok h.size_pos (h.reach.trans (by decide))

end Dimension

section Dimensions

variable {sizes window strides dilations : List Nat} {pads : List (Nat × Nat)} {k : Nat}

structure AllTractable (sizes window strides dilations : List Nat) : Prop where
  window_length : window.length = sizes.length
  strides_length : strides.length = sizes.length
  along : ∀ k < sizes.length,
    Tractable (sizes.getD k 0) (window.getD k 1) (strides.getD k 1) (dilations.getD k 1)

theorem length_places (h : AllTractable sizes window strides dilations) :
    (List.zipWith places sizes strides).length = sizes.length := by
  rw [List.length_zipWith, h.strides_length, Nat.min_self]

theorem getElem_places (h : AllTractable sizes window strides dilations)
    (hk : k < (List.zipWith places sizes strides).length) :
    (List.zipWith places sizes strides)[k] = places (sizes.getD k 0) (strides.getD k 1) := by
  have hsize : k < sizes.length := length_places h ▸ hk
  rw [List.getElem_zipWith, List.getD_eq_getElem?_getD, List.getD_eq_getElem?_getD,
    List.getElem?_eq_getElem hsize, List.getElem?_eq_getElem (h.strides_length ▸ hsize)]
  rfl

theorem AllTractable.places_lt (h : AllTractable sizes window strides dilations) {n : Nat}
    (hn : n ∈ List.zipWith places sizes strides) : n < sizeLimit := by
  obtain ⟨k, hk, rfl⟩ := List.mem_iff_getElem.mp hn
  have htractable := h.along k (length_places h ▸ hk)
  rw [getElem_places h hk]
  exact (htractable.places_bounds.2.1.trans_lt htractable.input_bounds.2).trans (by decide)

def lackPads (sizes window strides dilations : List Nat) : List (Nat × Nat) :=
  (List.range sizes.length).map fun k =>
    let n := lack (sizes.getD k 0) (window.getD k 1) (strides.getD k 1) (dilations.getD k 1)
    (n / 2, n - n / 2)

theorem length_lackPads (sizes window strides dilations : List Nat) :
    (lackPads sizes window strides dilations).length = sizes.length := by
  simp [lackPads]

theorem stop_of_mem_lackPads {p : Nat × Nat} (hp : p ∈ lackPads sizes window strides dilations) :
    p.2 = p.1 ∨ p.2 = p.1 + 1 := by
  obtain ⟨k, -, rfl⟩ := List.mem_map.mp hp
  dsimp only
  omega

theorem resolvePads_same (h : AllTractable sizes window strides dilations) :
    resolvePads .same sizes (List.zipWith places sizes strides) window strides dilations =
      .ok (lackPads sizes window strides dilations) := by
  refine mapM_range_eq_ok (length_lackPads _ _ _ _) fun k hk => ?_
  rw [length_lackPads] at hk
  have hsize : window[k]? = some (window.getD k 1) := by
    rw [List.getD_eq_getElem?_getD, List.getElem?_eq_getElem (h.window_length ▸ hk),
      Option.getD_some]
  have hplaces : (List.zipWith places sizes strides)[k]? =
      some (places (sizes.getD k 0) (strides.getD k 1)) := by
    rw [List.getElem?_eq_getElem (length_places h ▸ hk), getElem_places h]
  have hsame : (Padding.same.dim k sizes.length).mapError OpError.ofRule = .ok .same := rfl
  simp only [hsame, ok_bind, hsize, hplaces, ofOption_some, lackPads, List.getElem_map,
    List.getElem_range]
  exact samePads_places (h.along k hk)

theorem resolvePads_listed (hlen : pads.length = sizes.length) (output : List Nat) :
    resolvePads (.listed pads) sizes output window strides dilations = .ok pads := by
  refine mapM_range_eq_ok hlen fun k hk => ?_
  rw [Padding.dim_listed hlen (List.getElem?_eq_getElem hk)]
  rfl

/-- Whether a rule that rounds down finds as many places with this padding as an input has
strides. -/
def MakesPlaces (sizes window strides dilations : List Nat) (p : Padding) : Prop :=
  ∀ k < sizes.length, (p.dim k sizes.length >>= fun d =>
    outputSize (.ofSize (sizes.getD k 0)) (.ofSize (window.getD k 1)) (strides.getD k 1)
      (dilations.getD k 1) d false) = .ok (.ofSize (places (sizes.getD k 0) (strides.getD k 1)))

theorem makesPlaces_same (h : AllTractable sizes window strides dilations) :
    MakesPlaces sizes window strides dilations .same :=
  fun k hk => outputSize_same (h.along k hk) _ false

theorem makesPlaces_listed (h : AllTractable sizes window strides dilations) :
    MakesPlaces sizes window strides dilations
      (.listed (lackPads sizes window strides dilations)) := by
  intro k hk
  have hpads := List.getElem?_eq_getElem (length_lackPads sizes window strides dilations ▸ hk)
  rw [Padding.dim_listed (length_lackPads _ _ _ _) hpads, ok_bind]
  refine outputSize_fixed (h.along k hk) ?_
  simp only [lackPads, List.getElem_map, List.getElem_range]
  omega

theorem getD_of_drop {ds : List SymDim} (hds : ds.drop 2 = sizes.map .ofSize)
    (hk : k < sizes.length)
    (default : Nat) : ds.getD (2 + k) .unknown = .ofSize (sizes.getD k default) := by
  rw [List.getD_eq_getElem?_getD, ← List.getElem?_drop, hds, List.getElem?_map,
    List.getElem?_eq_getElem hk, List.getD_eq_getElem?_getD, List.getElem?_eq_getElem hk]
  rfl

/-- The sizes that a rule finds, whatever it is that the sizes of the windows are read from. -/
theorem mapM_outputSize (h : AllTractable sizes window strides dilations) {p : Padding}
    (hp : MakesPlaces sizes window strides dilations p) {ds : List SymDim}
    (hds : ds.drop 2 = sizes.map .ofSize) {w : Nat → SymDim}
    (hw : ∀ k < sizes.length, w k = .ofSize (window.getD k 1)) :
    ((List.range (ds.length - 2)).mapM fun k => do
      outputSize (ds.getD (2 + k) .unknown) (w k) (strides.getD k 1) (dilations.getD k 1)
        (← p.dim k (ds.length - 2)) false) =
      .ok ((List.zipWith places sizes strides).map .ofSize) := by
  have hrank : ds.length - 2 = sizes.length := by rw [← List.length_drop, hds, List.length_map]
  have hlen : ((List.zipWith places sizes strides).map SymDim.ofSize).length = sizes.length := by
    rw [List.length_map, length_places h]
  refine mapM_range_eq_ok (hlen.trans hrank.symm) fun k hk => ?_
  rw [hlen] at hk
  rw [hrank, getD_of_drop hds hk 0, hw k hk, List.getElem_map, getElem_places h]
  exact hp k hk

end Dimensions

end Window

/-- A description that tells the rank of a value and its sizes behind the item and the channel. -/
def SymTensor.TellsSpatial (t : SymTensor) (v : Value) : Prop :=
  ∃ ds, t.shape = .ranked ds ∧ ds.length = v.shape.length ∧ ds.drop 2 = (v.shape.drop 2).map .ofSize

def SymInputs.TellSpatial (syms : SymInputs) (inputs : ValueInputs) : Prop :=
  ∀ i < 2, ∀ t v, Inputs.find? syms i = some t → Inputs.find? inputs i = some v → t.TellsSpatial v

theorem Operator.tellSpatial_described (op : Operator) (inputs : ValueInputs) :
    SymInputs.TellSpatial (inputs.zipIdx.map op.describeInput) inputs := by
  intro i _ t v ht hv
  rw [op.find?_told, hv, Option.map_some, Option.some.injEq] at ht
  subst ht
  exact ⟨v.shape.map .ofSize, op.shape_told i v, List.length_map _, List.map_drop.symm⟩

theorem SymInputs.TellSpatial.drop {syms : SymInputs} {inputs : ValueInputs}
    (h : syms.TellSpatial inputs) {i : Nat} (hi : i < 2) {t : SymTensor} {v : Value}
    (ht : Inputs.find? syms i = some t) (hv : Inputs.find? inputs i = some v) {ds : List SymDim}
    (hds : t.shape = .ranked ds) :
    ds.drop 2 = (v.shape.drop 2).map .ofSize ∧ ds.length - 2 = (v.shape.drop 2).length := by
  obtain ⟨_, hshape, hlen, hdrop⟩ := h i hi t v ht hv
  cases hds.symm.trans hshape
  exact ⟨hdrop, by rw [List.length_drop, hlen]⟩

section Operators

open Window

variable {inputs : ValueInputs} {syms : SymInputs} {sizes window strides dilations : List Nat}
  {p q : Padding} {draws : Draws} {out : Value}

theorem Window.eq_of_spatialRank {shape : Shape} {rank : Nat}
    (h : (spatialRank shape : Outcome ε Nat) = .ok rank) : rank = (shape.drop 2).length := by
  unfold spatialRank checkSub at h
  split_ifs at h
  cases h
  exact List.length_drop.symm

namespace Conv

open WeightedWindow

variable {op : Conv}

/-- The windows that a convolution moves over its input are those of its weights. -/
structure Slides (op : Conv) (inputs : ValueInputs) (sizes window strides dilations : List Nat) :
    Prop where
  input : ∃ x, Inputs.find? inputs 0 = some x ∧ x.shape.drop 2 = sizes
  weights : ∃ weight, Inputs.find? inputs 1 = some weight ∧ weight.shape.drop 2 = window
  strides_eq : perDimension op.strides sizes.length .strides = .ok strides
  dilations_eq : perDimension op.dilations sizes.length .dilations = .ok dilations

theorem spatialSizes_eq_ok (h : AllTractable sizes window strides dilations)
    (hp : MakesPlaces sizes window strides dilations p) {ds ws : List SymDim}
    (hds : ds.drop 2 = sizes.map .ofSize) (hws : ws.drop 2 = window.map .ofSize) :
    spatialSizes { op with padding := p } ds ws strides dilations =
      .ok ((List.zipWith places sizes strides).map .ofSize) :=
  mapM_outputSize h hp hds fun _ hk => getD_of_drop hws (h.window_length ▸ hk) 1

/-- The rule does not tell apart paddings that make the same places. -/
theorem infer_congr (hop : op.Slides inputs sizes window strides dilations)
    (h : AllTractable sizes window strides dilations) (hsyms : syms.TellSpatial inputs)
    (hp : MakesPlaces sizes window strides dilations p)
    (hq : MakesPlaces sizes window strides dilations q) :
    infer { op with padding := p } syms = infer { op with padding := q } syms := by
  obtain ⟨x, hx, rfl⟩ := hop.input
  obtain ⟨weight, hw, rfl⟩ := hop.weights
  rw [infer_eq, infer_eq]
  refine bind_congr_ok fun t ht => bind_congr_ok fun u hu => bind_congr fun _ => bind_congr fun _ =>
    ?_
  refine bind_congr_ok fun dims hdims => ?_
  obtain _ | ⟨ds, ws⟩ := dims
  · rfl
  obtain ⟨hds, hws⟩ := shapes_of_dims? hdims
  obtain ⟨hspatial, hrank⟩ := hsyms.drop (by decide) (SymInputs.demand_eq_ok.mp ht) hx hds
  obtain ⟨hspatial', -⟩ := hsyms.drop (by decide) (SymInputs.demand_eq_ok.mp hu) hw hws
  simp only [result, hrank, hop.strides_eq, hop.dilations_eq, ok_bind,
    spatialSizes_eq_ok h hp hspatial hspatial', spatialSizes_eq_ok h hq hspatial hspatial']

theorem shape_of_infer (hop : op.Slides inputs sizes window strides dilations)
    (h : AllTractable sizes window strides dilations) (hsyms : syms.TellSpatial inputs)
    (hp : MakesPlaces sizes window strides dilations p) {ys : List SymTensor}
    (hys : infer { op with padding := p } syms = .ok ys) :
    ∃ d e, ys = [.ofShape .float (.ranked
      (d :: e :: (List.zipWith places sizes strides).map .ofSize))] := by
  obtain ⟨x, hx, rfl⟩ := hop.input
  obtain ⟨weight, hw, rfl⟩ := hop.weights
  rw [infer_eq] at hys
  obtain ⟨t, ht, hys⟩ := bind_eq_ok.mp hys
  obtain ⟨u, hu, hys⟩ := bind_eq_ok.mp hys
  obtain ⟨_, -, hys⟩ := bind_eq_ok.mp hys
  obtain ⟨_, -, hys⟩ := bind_eq_ok.mp hys
  obtain ⟨dims, hdims, hys⟩ := bind_eq_ok.mp hys
  have ht := SymInputs.demand_eq_ok.mp ht
  have hu := SymInputs.demand_eq_ok.mp hu
  obtain ⟨ds, hds, -⟩ := hsyms 0 (by decide) t x ht hx
  obtain ⟨ws, hws, -⟩ := hsyms 1 (by decide) u weight hu hw
  obtain ⟨hspatial, hrank⟩ := hsyms.drop (by decide) ht hx hds
  obtain ⟨hspatial', -⟩ := hsyms.drop (by decide) hu hw hws
  simp only [dims?, hds, hws] at hdims
  obtain ⟨_, -, hdims⟩ := bind_eq_ok.mp hdims
  obtain ⟨_, -, hdims⟩ := bind_eq_ok.mp hdims
  obtain ⟨_, -, hdims⟩ := bind_eq_ok.mp hdims
  cases hdims
  simp only [result, hrank, hop.strides_eq, hop.dilations_eq, ok_bind,
    spatialSizes_eq_ok h hp hspatial hspatial'] at hys
  obtain ⟨_, -, hys⟩ := bind_eq_ok.mp hys
  obtain ⟨_, -, hys⟩ := bind_eq_ok.mp hys
  obtain ⟨_, -, hys⟩ := bind_eq_ok.mp hys
  cases hys
  exact ⟨_, _, rfl⟩

/-- Nor does the kernel tell apart paddings that are resolved to the same pads. -/
theorem call_congr (hop : op.Slides inputs sizes window strides dilations)
    (hpads : resolvePads p sizes (out.shape.drop 2) window strides dilations =
      resolvePads q sizes (out.shape.drop 2) window strides dilations) :
    (Operator.conv { op with padding := p }).call draws inputs [out] =
      (Operator.conv { op with padding := q }).call draws inputs [out] := by
  obtain ⟨x, hx, rfl⟩ := hop.input
  obtain ⟨weight, hw, rfl⟩ := hop.weights
  have hgeometry : geometry { op with padding := p } x.shape weight.shape out.shape =
      geometry { op with padding := q } x.shape weight.shape out.shape := by
    refine bind_congr_ok fun rank hrank => ?_
    obtain rfl := eq_of_spatialRank hrank
    simp only [hop.strides_eq, hop.dilations_eq, mapError, ok_bind, hpads]
  have hprepare : prepare { op with padding := p } inputs [out] =
      prepare { op with padding := q } inputs [out] := by
    simp only [prepare, ValueInputs.demand, hx, hw, orRefuse_some, ok_bind, Kernel.single,
      hgeometry]
  have hresolve : resolve { op with padding := p } inputs [out] =
      resolve { op with padding := q } inputs [out] := by
    simp only [resolve, ValueInputs.demand, hx, hw, orRefuse_some, ok_bind, Kernel.single,
      hgeometry]
  simp only [Operator.call, Operator.prepare, Operator.resolve, hprepare, hresolve]

end Conv

namespace Pool

variable {op : Pool}

/-- The windows that pooling moves over its input are an attribute, not spread, and their places
are rounded down. -/
structure Slides (op : Pool) (inputs : ValueInputs) (sizes window strides dilations : List Nat) :
    Prop where
  input : ∃ x, Inputs.find? inputs 0 = some x ∧ x.shape.drop 2 = sizes
  kernel_eq : op.kernel = window
  strides_eq : perDimension op.strides sizes.length .strides = .ok strides
  dilations_eq : List.replicate sizes.length 1 = dilations
  floor : op.ceilMode = false

theorem shape_of_dims? {t : SymTensor} {ds : List SymDim} (h : dims? t = .ok (some ds)) :
    t.shape = .ranked ds := by
  obtain ⟨_, -, h⟩ := bind_eq_ok.mp h
  obtain ⟨_, -, h⟩ := bind_eq_ok.mp h
  cases hs : t.shape with
  | unknown =>
    rw [hs] at h
    cases h
  | ranked es =>
    rw [hs] at h
    cases h
    rfl

theorem spatialSizes_eq_ok (hop : op.Slides inputs sizes window strides dilations)
    (h : AllTractable sizes window strides dilations)
    (hp : MakesPlaces sizes window strides dilations p) {ds : List SymDim}
    (hds : ds.drop 2 = sizes.map .ofSize) :
    spatialSizes { op with padding := p } ds strides =
      .ok ((List.zipWith places sizes strides).map .ofSize) := by
  obtain rfl := hop.kernel_eq
  obtain rfl := hop.dilations_eq
  have hsizes := mapM_outputSize h hp hds fun _ _ => rfl
  simp only [getD_replicate_one] at hsizes
  rw [spatialSizes, hop.floor]
  exact hsizes

theorem infer_congr (hop : op.Slides inputs sizes window strides dilations)
    (h : AllTractable sizes window strides dilations) (hsyms : syms.TellSpatial inputs)
    (hp : MakesPlaces sizes window strides dilations p)
    (hq : MakesPlaces sizes window strides dilations q) :
    infer { op with padding := p } syms = infer { op with padding := q } syms := by
  obtain ⟨x, hx, rfl⟩ := hop.input
  refine bind_congr_ok fun t ht => bind_congr_ok fun dims hdims => ?_
  obtain _ | ds := dims
  · rfl
  have hds := shape_of_dims? hdims
  obtain ⟨hspatial, hrank⟩ := hsyms.drop (by decide) (SymInputs.demand_eq_ok.mp ht) hx hds
  simp only [hrank, hop.strides_eq, ok_bind, spatialSizes_eq_ok hop h hp hspatial,
    spatialSizes_eq_ok hop h hq hspatial]

theorem shape_of_infer (hop : op.Slides inputs sizes window strides dilations)
    (h : AllTractable sizes window strides dilations) (hsyms : syms.TellSpatial inputs)
    (hp : MakesPlaces sizes window strides dilations p) {ys : List SymTensor}
    (hys : infer { op with padding := p } syms = .ok ys) :
    ∃ d e, ys = [.ofShape .float (.ranked
      (d :: e :: (List.zipWith places sizes strides).map .ofSize))] := by
  obtain ⟨x, hx, rfl⟩ := hop.input
  obtain ⟨t, ht, hys⟩ := bind_eq_ok.mp hys
  obtain ⟨dims, hdims, hys⟩ := bind_eq_ok.mp hys
  have ht := SymInputs.demand_eq_ok.mp ht
  obtain ⟨ds, hds, -⟩ := hsyms 0 (by decide) t x ht hx
  obtain ⟨hspatial, hrank⟩ := hsyms.drop (by decide) ht hx hds
  obtain ⟨_, -, hdims⟩ := bind_eq_ok.mp hdims
  obtain ⟨_, hleast, hdims⟩ := bind_eq_ok.mp hdims
  cases hdims
  simp only [hds, SymShape.dims?, hrank, hop.strides_eq, ok_bind,
    spatialSizes_eq_ok hop h hp hspatial] at hys
  obtain ⟨_, -, hys⟩ := bind_eq_ok.mp hys
  cases hys
  have hleast : 3 ≤ ds.length := by simpa [hds, SymShape.demandRank] using hleast
  obtain _ | ⟨d, _ | ⟨e, rest⟩⟩ := ds
  · cases hleast
  · simp at hleast
  · exact ⟨d, e, rfl⟩

theorem call_congr (hop : op.Slides inputs sizes window strides dilations)
    (hpads : resolvePads p sizes (out.shape.drop 2) window strides dilations =
      resolvePads q sizes (out.shape.drop 2) window strides dilations) :
    (Operator.pool { op with padding := p }).call draws inputs [out] =
      (Operator.pool { op with padding := q }).call draws inputs [out] := by
  obtain ⟨x, hx, rfl⟩ := hop.input
  obtain rfl := hop.kernel_eq
  obtain rfl := hop.dilations_eq
  have hgeometry : geometry { op with padding := p } x.shape out.shape =
      geometry { op with padding := q } x.shape out.shape := by
    refine bind_congr_ok fun rank hrank => ?_
    obtain rfl := eq_of_spatialRank hrank
    simp only [hop.strides_eq, mapError, ok_bind, hpads]
  have hprepare : prepare { op with padding := p } inputs [out] =
      prepare { op with padding := q } inputs [out] := by
    simp only [prepare, ValueInputs.demand, hx, orRefuse_some, ok_bind, Kernel.single, hgeometry]
  have hresolve : resolve { op with padding := p } inputs [out] =
      resolve { op with padding := q } inputs [out] := by
    simp only [resolve, ValueInputs.demand, hx, orRefuse_some, ok_bind, Kernel.single, hgeometry]
  simp only [Operator.call, Operator.prepare, Operator.resolve, hprepare, hresolve]

end Pool

namespace Operator

variable {op : Padding → Operator}

/-- An operator that moves windows over the spatial sizes of its input and rounds their places
down, for any padding: a convolution or a pooling. -/
inductive Slides (inputs : ValueInputs) (sizes window strides dilations : List Nat) :
    (Padding → Operator) → Prop
  | conv {op : Conv} (h : op.Slides inputs sizes window strides dilations) :
      Slides inputs sizes window strides dilations fun p => .conv { op with padding := p }
  | pool {op : Pool} (h : op.Slides inputs sizes window strides dilations) :
      Slides inputs sizes window strides dilations fun p => .pool { op with padding := p }

namespace Slides

theorem infer_congr (hop : Slides inputs sizes window strides dilations op)
    (h : AllTractable sizes window strides dilations) (hsyms : syms.TellSpatial inputs)
    (hp : MakesPlaces sizes window strides dilations p)
    (hq : MakesPlaces sizes window strides dilations q) :
    (op p).infer syms = (op q).infer syms := by
  cases hop with
  | conv hop => exact Conv.infer_congr hop h hsyms hp hq
  | pool hop => exact Pool.infer_congr hop h hsyms hp hq

theorem shape_of_infer (hop : Slides inputs sizes window strides dilations op)
    (h : AllTractable sizes window strides dilations) (hsyms : syms.TellSpatial inputs)
    (hp : MakesPlaces sizes window strides dilations p) {ys : List SymTensor}
    (hys : (op p).infer syms = .ok ys) : ∃ d e, ys = [.ofShape .float (.ranked
      (d :: e :: (List.zipWith places sizes strides).map .ofSize))] := by
  cases hop with
  | conv hop => exact Conv.shape_of_infer hop h hsyms hp hys
  | pool hop => exact Pool.shape_of_infer hop h hsyms hp hys

theorem call_congr (hop : Slides inputs sizes window strides dilations op)
    (hpads : resolvePads p sizes (out.shape.drop 2) window strides dilations =
      resolvePads q sizes (out.shape.drop 2) window strides dilations) :
    (op p).call draws inputs [out] = (op q).call draws inputs [out] := by
  cases hop with
  | conv hop => exact Conv.call_congr hop hpads
  | pool hop => exact Pool.call_congr hop hpads

theorem checkedTypes_eq (hop : Slides inputs sizes window strides dilations op) (p : Padding) :
    (op p).checkedTypes inputs = (do
      ((op .same).demandArity inputs.length).mapError OpError.ofRule
      let outputs ←
        ((op p).infer (inputs.zipIdx.map (op .same).describeInput)).mapError OpError.ofRule
      .refuseIf (outputs.length ≠ 1) (.value .outputCount)
      outputs.mapM fun t => do
        return ⟨t.dtype, ← .orRefuse (.value .outputShape) t.shape.toShape?⟩) := by
  cases hop <;> rfl

theorem exists_output (hop : Slides inputs sizes window strides dilations op)
    (h : AllTractable sizes window strides dilations)
    (hp : MakesPlaces sizes window strides dilations p) {outputs : List Value}
    (htypes : (op p).checkedTypes inputs = .ok (outputs.map Value.type)) :
    ∃ out, outputs = [out] ∧ out.shape.drop 2 = List.zipWith places sizes strides := by
  rw [hop.checkedTypes_eq] at htypes
  obtain ⟨_, -, htypes⟩ := bind_eq_ok.mp htypes
  obtain ⟨ys, hys, htypes⟩ := bind_eq_ok.mp htypes
  obtain ⟨_, -, htypes⟩ := bind_eq_ok.mp htypes
  obtain ⟨d, e, rfl⟩ := hop.shape_of_infer h ((op .same).tellSpatial_described inputs) hp
    (mapError_eq_ok.mp hys)
  obtain ⟨ty, _, hty, hnil, hout⟩ := List.forall₂_cons_left_iff.mp (mapM_eq_ok.mp htypes)
  cases List.forall₂_nil_left_iff.mp hnil
  obtain ⟨shape, hshape, hty⟩ := bind_eq_ok.mp hty
  cases hty
  obtain ⟨out, rfl, -⟩ := List.map_eq_singleton_iff.mp hout
  obtain ⟨heq, hlt⟩ := SymShape.toShape?_eq_some (orRefuse_eq_ok.mp hshape)
  refine ⟨out, rfl, ?_⟩
  rw [Value.shape_of_type hout]
  have hdrop : SymShape.ofShape (List.zipWith places sizes strides) = .ofShape (shape.drop 2) := by
    rw [SymShape.ofShape, SymShape.ofShape, List.map_drop]
    have hdims := SymShape.ranked.inj heq
    rw [← hdims]
    rfl
  exact (SymShape.ofShape_injective (fun _ => h.places_lt) (fun n hn =>
    hlt n (List.mem_of_mem_drop hn))
    hdrop).symm

theorem apply_congr (hop : Slides inputs sizes window strides dilations op)
    (h : AllTractable sizes window strides dilations)
    (hp : MakesPlaces sizes window strides dilations p)
    (hq : MakesPlaces sizes window strides dilations q)
    (hpads : resolvePads p sizes (List.zipWith places sizes strides) window strides dilations =
      resolvePads q sizes (List.zipWith places sizes strides) window strides dilations) (chain :
    Chain) :
    chain.apply (op p) inputs = chain.apply (op q) inputs := by
  refine Chain.apply_congr ?_ (fun outputs htypes => ?_) chain
  · rw [hop.checkedTypes_eq, hop.checkedTypes_eq,
      hop.infer_congr h ((op .same).tellSpatial_described inputs) hp hq]
  · obtain ⟨out, rfl, hout⟩ := hop.exists_output h hp htypes
    exact hop.call_congr (hout ▸ hpads)

end Slides

/-- Padding that follows the sizes is resolved to pads of which the one at the end is the same as
the one at the start or larger by one. With these pads listed, the operator has the same rule, the
same calls and the same outputs, and its output is as long as its input has strides, rounded up. -/
theorem same_eq_listed (hop : Slides inputs sizes window strides dilations op)
    (h : AllTractable sizes window strides dilations) :
    ∃ pads, resolvePads .same sizes (List.zipWith places sizes strides) window strides dilations =
        .ok pads ∧
      (∀ p ∈ pads, p.2 = p.1 ∨ p.2 = p.1 + 1) ∧
      (∀ syms, SymInputs.TellSpatial syms inputs →
        (op (.listed pads)).infer syms = (op .same).infer syms ∧
          ∀ ys, (op .same).infer syms = .ok ys → ∃ d e, ys = [.ofShape .float (.ranked
            (d :: e :: (List.zipWith places sizes strides).map .ofSize))]) ∧
      (∀ out : Value, out.shape.drop 2 = List.zipWith places sizes strides →
        resolvePads (.listed pads) sizes (out.shape.drop 2) window strides dilations = .ok pads ∧
          ∀ draws, (op (.listed pads)).call draws inputs [out] =
          (op .same).call draws inputs [out]) ∧
      ∀ chain : Chain, chain.apply (op (.listed pads)) inputs = chain.apply (op .same) inputs := by
  have hsame := makesPlaces_same h
  have hlisted := makesPlaces_listed h
  have hresolved := resolvePads_same h
  have hpads : ∀ output,
      resolvePads (.listed (lackPads sizes window strides dilations)) sizes output window
      strides dilations = .ok (lackPads sizes window strides dilations) :=
    resolvePads_listed (length_lackPads sizes window strides dilations)
  refine ⟨_, hresolved, fun p hp => stop_of_mem_lackPads hp, fun syms hsyms => ?_, fun out hout =>
    ?_,
    hop.apply_congr h hlisted hsame ((hpads _).trans hresolved.symm)⟩
  · exact ⟨hop.infer_congr h hsyms hlisted hsame, fun ys hys =>
      hop.shape_of_infer h hsyms hsame hys⟩
  · rw [← hout] at hresolved
    exact ⟨hpads _, fun _ => hop.call_congr ((hpads _).trans hresolved.symm)⟩

/-- Windows whose two elements stand three apart, moved by two over three elements. -/
theorem same_eq_listed_dilated :
    (Operator.conv ⟨.fixed [1, 2], [2], [3], 1⟩).infer [some (.ofShape .float (.ofShape [1, 1, 3])),
        some (.ofShape .float (.ofShape [1, 1, 2]))] = .ok [.ofShape .float (.ofShape [1, 1, 2])] ∧
      Chain.reference.apply (.conv ⟨.fixed [1, 2], [2], [3], 1⟩)
          [some (.float ⟨[1, 1, 3], [1, 2, 3], rfl⟩), some (.float ⟨[1, 1, 2], [1, 1], rfl⟩)] =
        Chain.reference.apply (.conv ⟨.same, [2], [3], 1⟩)
          [some (.float ⟨[1, 1, 3], [1, 2, 3], rfl⟩), some (.float ⟨[1, 1, 2], [1, 1], rfl⟩)] := by
  have hop : Conv.Slides ⟨.same, [2], [3], 1⟩
      [some (.float ⟨[1, 1, 3], [1, 2, 3], rfl⟩), some (.float ⟨[1, 1, 2], [1, 1], rfl⟩)] [3] [2]
        [2] [3] :=
    ⟨⟨_, rfl, rfl⟩, ⟨_, rfl, rfl⟩, rfl, rfl⟩
  have h : AllTractable [3] [2] [2] [3] := by
    refine ⟨rfl, rfl, fun k hk => ?_⟩
    obtain rfl : k = 0 := Nat.lt_one_iff.mp hk
    exact ⟨by decide, by decide, by decide, by decide, by decide⟩
  obtain ⟨pads, hpads, -, -, -, happly⟩ := same_eq_listed (.conv hop) h
  obtain rfl : [(1, 2)] = pads := Outcome.ok.inj hpads
  exact ⟨by decide, happly Chain.reference⟩

end Operator

end Operators

end TensorGraph
