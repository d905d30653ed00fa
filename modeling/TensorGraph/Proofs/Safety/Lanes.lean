import TensorGraph.Proofs.Rules.Normalization
import TensorGraph.Proofs.Rules.Reduction
import TensorGraph.Proofs.Safety.Making
import TensorGraph.Proofs.Writes

/-! Operators that read a tensor lane by lane or channel by channel. -/

namespace TensorGraph

open Outcome Kernel

variable {inputs : ValueInputs} {outputs : List Value} {out x : Value} {α : Type}

namespace Tensor

variable {ε : Type} {t : Tensor α} {dims : List Nat} {ls : List (List α)} {lane : List α}

def sizesAlong (shape : Shape) (dims : List Nat) : Shape :=
  shape.zipIdx.map fun (size, k) => if dims.contains k then size else 1

/-- A lane has no more elements than the sizes along it allow. -/
theorem length_le_of_mem_lanes (h : (t.lanes dims : Outcome ε _) = .ok ls) (hlane : lane ∈ ls) :
    lane.length ≤ Shape.volume (sizesAlong t.shape dims) := by
  obtain ⟨positions, hpositions, h⟩ := bind_eq_ok.mp h
  cases h
  obtain ⟨index, hindex, rfl⟩ := List.mem_map.mp hlane
  obtain rfl := Index.checkedAll_eq_ok hpositions
  have hlength : index.length = t.shape.length := by
    rw [(Index.lt_of_mem_all hindex).length_eq, cutShape, List.length_map, List.length_zipIdx]
  refine (List.length_filterMap_le _ _).trans_eq ?_
  rw [Index.length_box]
  refine congrArg Shape.volume (List.ext_getElem (by simp [sizesAlong, laneBox, hlength]) ?_)
  intro k hk hk'
  simp only [sizesAlong, laneBox, List.getElem_map, List.getElem_zipIdx, List.getElem_zip]
  split_ifs <;> omega

theorem mem_data_of_mem_lanes (h : (t.lanes dims : Outcome ε _) = .ok ls) (hlane : lane ∈ ls)
    {a : α} (ha : a ∈ lane) : a ∈ t.data := by
  obtain ⟨positions, -, h⟩ := bind_eq_ok.mp h
  cases h
  obtain ⟨index, -, rfl⟩ := List.mem_map.mp hlane
  obtain ⟨position, -, hread⟩ := List.mem_filterMap.mp ha
  exact (List.of_mem_zip (mem_zip_iff.mpr hread)).2

end Tensor

namespace Reduce

def joinedDims (op : Reduce) (rank : Nat) (inputs : ValueInputs) : Outcome OpError (List Nat) := do
  match op.selectAxes ((← inputs.findInts? 1).map some) with
  | .keep => return []
  | .all | .unknown => return List.range rank
  | .some axes => (Axis.resolveAll rank axes).mapError OpError.ofRule

/-- Whether the elements that a mean joins can be counted. -/
def TameIn (op : Reduce) (inputs : ValueInputs) : Prop :=
  op.reduction = .mean → ∀ x, Inputs.find? inputs 0 = some x → ∀ dims,
    op.joinedDims x.rank inputs = .ok dims → Shape.volume (Tensor.sizesAlong x.shape dims) <
      counterLimit

theorem noFault_kernel {op : Reduction} {dims : List Nat} (hx : x.shape.Fits)
    (hmean : op = .mean → Shape.volume (Tensor.sizesAlong x.shape dims) < counterLimit) :
    (kernel op x dims out ()).NoFault := by
  unfold kernel
  split_ifs
  · exact noFault_ok _
  have hlimit := hx.extent_lt_sizeLimit
  cases x <;> cases out
  case neg.float.float x out =>
    refine noFault_bind ?_ fun _ _ => noFault_filled _
    refine noFault_bind (Tensor.noFault_lanes hlimit dims) fun lanes hlanes => ?_
    refine noFault_bind (noFault_demand_iff.mpr fun lane hlane hop => ?_) fun _ _ => noFault_ok _
    exact (Tensor.length_le_of_mem_lanes hlanes hlane).trans_lt (hmean hop)
  case neg.int.int x out =>
    refine noFault_bind ?_ fun _ _ => noFault_filled _
    refine noFault_bind (Tensor.noFault_lanes hlimit dims) fun lanes _ => ?_
    exact noFault_bind (noFault_demand_iff.mpr fun _ _ => trivial) fun _ _ => noFault_ok _
  all_goals exact noFault_ok _

theorem safe (op : Reduce) (h : (Operator.reduce op).Accepts inputs outputs)
    (htame : op.TameIn inputs) : Safe (op.prepare inputs outputs) := by
  refine safe_demand fun x hx => safe_single fun out _ => ?_
  have hfits := h.fits_input hx
  refine safe_bind (ValueInputs.noFault_findInts? _ _) fun axes haxes => ?_
  have hjoined : ∀ dims, op.joinedDims x.rank inputs = .ok dims →
      (kernel op.reduction x dims out ()).NoFault := fun dims hdims =>
    noFault_kernel hfits fun hmean => htame hmean x hx dims hdims
  simp only [joinedDims, haxes, ok_bind] at hjoined
  split
  · exact safe_ok (noFault_copy _ _)
  · next hselect =>
    rw [hselect] at hjoined
    exact safe_ok (hjoined _ rfl)
  · next hselect =>
    rw [hselect] at hjoined
    exact safe_ok (hjoined _ rfl)
  · next hselect =>
    rw [hselect] at hjoined
    exact safe_bind (Axis.noFault_resolveAll_value hfits _) fun dims hdims =>
      safe_ok (hjoined dims hdims)

end Reduce

theorem ArgReduce.safe (op : ArgReduce) (h : (Operator.argReduce op).Accepts inputs outputs) :
    Safe (op.prepare inputs outputs) := by
  refine safe_demand fun x hx => ?_
  have hfits := h.fits_input hx
  refine safe_bind (Axis.noFault_resolve_value hfits _) fun dim _ => safe_single fun out _ => ?_
  refine safe_ok (noFault_intOutput fun out' _ => ?_)
  have hlimit := hfits.extent_lt_sizeLimit
  cases x with
  | float x => exact noFault_bind (Tensor.noFault_lanes hlimit _) fun _ _ => noFault_ok _
  | int x => exact noFault_bind (Tensor.noFault_lanes hlimit _) fun _ _ => noFault_ok _

namespace TopK

theorem length_values {op : TopK} {values positions : Value}
    (h : (Operator.topK op).Accepts inputs [values, positions])
    (hx : Inputs.find? inputs 0 = some x) : values.shape.length = x.shape.length := by
  obtain ⟨ws, hw, houtputs⟩ := h.infer rfl
  simp only [Operator.infer, infer, Operator.demand_told _ hx, ok_bind] at hw
  obtain ⟨_, -, hw⟩ := bind_eq_ok.mp hw
  obtain ⟨taken, -, hw⟩ := bind_eq_ok.mp hw
  obtain ⟨s, hs, hw⟩ := bind_eq_ok.mp hw
  cases hw
  have hshape : s = .ofShape values.shape := by
    obtain ⟨hvalues, -⟩ := List.forall₂_cons.mp houtputs
    simpa using hvalues.2
  subst hshape
  rw [Operator.shape_told, outputShape_eq, SymShape.ofShape, SymShape.rank?_ranked] at hs
  obtain ⟨dim, -, hs⟩ := bind_eq_ok.mp hs
  obtain ⟨_, -, hs⟩ := bind_eq_ok.mp hs
  simp only [SymShape.ofShape, SymShape.setDim, pure_eq, ok.injEq, SymShape.ranked.injEq] at hs
  have hlen := congrArg List.length hs
  simpa using hlen.symm

/-- Whether memory holds the entries of a lane along a dimension, and lanes that are not short hold
no NaN. -/
structure TameAlong (x : Value) (dim : Nat) : Prop where
  room : x.shape.getD dim 0 * entryBytes < byteLimit
  ordered : x.shape.getD dim 0 ≤ 20 ∨ ∀ t, x = .float t → ∀ a ∈ t.data, Element.same a a = true

/-- Whether the lanes along the axis can be sorted. -/
def TameIn (op : TopK) (inputs : ValueInputs) : Prop :=
  ∀ x, Inputs.find? inputs 0 = some x → ∀ dim, Axis.resolve x.rank op.axis = .ok dim →
    TameAlong x dim

theorem noFault_fill [Element α] {op : TopK} {t values : Tensor α} {positions : Tensor Int64}
    {dim : Nat} (ht : t.shape.Fits) (hdim : dim < t.shape.length)
    (hlength : values.shape.length = t.shape.length)
    (hroom : t.shape.getD dim 0 * entryBytes < byteLimit)
    (hordered : t.shape.getD dim 0 ≤ 20 ∨ ∀ a ∈ t.data, Element.same a a = true) :
    (op.fill t dim values positions : Outcome OpError _).NoFault := by
  have hlimit := ht.extent_lt_sizeLimit
  have hread := List.getElem?_eq_getElem hdim
  have hsize : t.shape.getD dim 0 = t.shape[dim] := by rw [List.getD_eq_getElem?_getD, hread]; rfl
  rw [hsize] at hroom hordered
  refine noFault_bind (Tensor.noFault_size (hlength ▸ hdim)) fun k _ => ?_
  refine noFault_bind (Tensor.noFault_size hdim) fun size hn => ?_
  obtain rfl : t.shape[dim] = size := Option.some.inj (hread.symm.trans (Tensor.size_eq_ok hn))
  refine noFault_bind (noFault_demand_iff.mpr hroom) fun _ _ => ?_
  refine noFault_bind (Tensor.noFault_laneStarts hlimit dim) fun _ _ => ?_
  refine noFault_bind (Tensor.noFault_lanes hlimit _) fun lanes hlanes => ?_
  refine noFault_bind (noFault_demand_iff.mpr fun lane hlane => ?_) fun _ _ => noFault_ok _
  refine hordered.imp (fun hshort => ?_) fun hall a ha =>
    hall a (Tensor.mem_data_of_mem_lanes hlanes hlane ha)
  rw [Tensor.lanes_eq hread] at hlanes
  split_ifs at hlanes
  cases hlanes
  obtain ⟨start, hstart, rfl⟩ := List.mem_map.mp hlane
  exact (Tensor.length_lane hread (Index.lt_of_mem_all hstart)).trans_le hshort

theorem safe (op : TopK) (h : (Operator.topK op).Accepts inputs outputs)
    (htame : op.TameIn inputs) :
    Safe (op.prepare inputs outputs) := by
  refine safe_demand fun x hx => ?_
  have hfits := h.fits_input hx
  refine safe_bind (Axis.noFault_resolve_value hfits _) fun dim hresolve => ?_
  have hdim := Axis.resolve_lt (mapError_eq_ok.mp hresolve)
  obtain ⟨hroom, hordered⟩ := htame x hx dim (mapError_eq_ok.mp hresolve)
  split
  next values positions =>
    have hlen := length_values h hx
    refine safe_ok ?_
    cases positions <;> cases x <;> cases values
    case int.float.float positions x values =>
      have hordered := hordered.imp_right fun hall a ha => hall x rfl a ha
      exact noFault_bind (noFault_fill hfits hdim hlen hroom hordered) fun _ _ => noFault_ok _
    case int.int.int positions x values =>
      have hordered : ∀ a ∈ x.data, Element.same a a = true := fun a _ => beq_self_eq_true a
      exact noFault_bind (noFault_fill hfits hdim hlen hroom (.inr hordered)) fun _ _ =>
        noFault_ok _
    all_goals exact noFault_ok _
  next => exact noFault_error _

end TopK

theorem CumSum.safe (op : CumSum) (h : (Operator.cumSum op).Accepts inputs outputs) :
    Safe (op.prepare inputs outputs) := by
  refine safe_demand fun x hx => ?_
  have hfits := h.fits_input hx
  refine safe_bind (ValueInputs.noFault_findInt? _ _) fun axis? _ => ?_
  refine safe_bind (noFault_orRefuse _ _) fun axis _ => ?_
  refine safe_bind (Axis.noFault_resolve_value hfits _) fun dim _ => ?_
  refine safe_single fun out _ => safe_ok ?_
  have hlimit := hfits.extent_lt_sizeLimit
  cases x <;> cases out
  case float.float x out =>
    refine noFault_bind ?_ fun _ _ => noFault_filled _
    exact noFault_bind (Tensor.noFault_laneStarts hlimit _) fun _ _ => noFault_ok _
  case int.int x out =>
    refine noFault_bind ?_ fun _ _ => noFault_filled _
    exact noFault_bind (Tensor.noFault_laneStarts hlimit _) fun _ _ => noFault_ok _
  all_goals exact noFault_ok _

theorem Softmax.safe (op : Softmax) (h : (Operator.softmax op).Accepts inputs outputs) :
    Safe (op.prepare inputs outputs) := by
  refine safe_demand fun x hx => ?_
  have hfits := h.fits_input hx
  refine safe_bind (Axis.noFault_resolve_value hfits _) fun dim hresolve => safe_single fun out _ =>
    ?_
  refine safe_ok (noFault_floatOnly fun x' out' hx' _ => ?_)
  rw [← hx'] at hfits
  have hlimit := hfits.extent_lt_sizeLimit
  have hdim : dim < x'.shape.length :=
    hx' ▸ (Axis.resolve_lt (mapError_eq_ok.mp hresolve) : dim < x.shape.length)
  refine noFault_bind (Tensor.noFault_size hdim) fun size hsize => ?_
  have hroom : size * DataType.float.bytes < byteLimit := by
    have hlt := hfits.size_lt (List.mem_of_getElem? (Tensor.size_eq_ok hsize))
    rw [show DataType.float.bytes = 4 from rfl]
    unfold countLimit at hlt
    unfold byteLimit
    omega
  refine noFault_bind (noFault_demand_iff.mpr hroom) fun _ _ => ?_
  refine noFault_bind (Tensor.noFault_laneStarts hlimit _) fun _ _ => ?_
  exact noFault_bind (Tensor.noFault_lanes hlimit _) fun _ _ => noFault_ok _

namespace Normalization

theorem demandFloat_told {op : Operator} {i leastRank : Nat} {t : SymTensor}
    (h : demandFloat (op.told i x) leastRank = .ok t) :
    leastRank ≤ x.shape.length ∧ t.shape = .ofShape x.shape := by
  obtain ⟨_, -, h⟩ := bind_eq_ok.mp h
  obtain ⟨_, hrank, h⟩ := bind_eq_ok.mp h
  cases h
  rw [Operator.shape_told] at hrank
  exact ⟨SymShape.demandRank_ofShape hrank, by simp [SymTensor.sameShape]⟩

theorem length_of_demandPerChannel {channels : Nat} {params : List (List Float32)} {u : Unit}
    (h : demandPerChannel channels params = .ok u) : ∀ p ∈ params, p.length = channels := by
  have hparams := refuseIf_eq_ok.mp h
  simpa using hparams

theorem chunks_nil (length fuel : Nat) : chunks length fuel ([] : List α) = [] := by
  cases fuel <;> rfl

theorem getElem?_of_lt_channels {channels i : Nat} {p : List Float32} (hp : p.length = channels)
    (hi : i < channels) : (.ofOption p[i]? : Outcome OpError Float32).NoFault := by
  rw [noFault_ofOption_iff, List.getElem?_eq_getElem (by omega)]
  rfl

end Normalization

open Normalization

theorem BatchNormalization.safe (op : BatchNormalization)
    (h : (Operator.batchNormalization op).Accepts inputs outputs) :
    Safe (op.prepare inputs outputs) := by
  refine safe_demand fun x hx => safe_demand fun scale _ => safe_demand fun bias _ => ?_
  refine safe_demand fun mean _ => safe_demand fun variance _ => safe_single fun out hout => ?_
  subst hout
  have hfits := h.fits_input hx
  obtain ⟨w, hw, -, -⟩ := h.infer_single rfl
  simp only [Operator.infer, infer_eq, Operator.demand_told _ hx, ok_bind] at hw
  obtain ⟨_, -, hw⟩ := bind_eq_ok.mp hw
  obtain ⟨_, -, hw⟩ := bind_eq_ok.mp hw
  obtain ⟨_, -, hw⟩ := bind_eq_ok.mp hw
  obtain ⟨_, -, hw⟩ := bind_eq_ok.mp hw
  obtain ⟨t, ht, hw⟩ := bind_eq_ok.mp hw
  have hrank := (demandFloat_told ht).1
  refine safe_ok ?_
  refine noFault_bind (noFault_typed _) fun scale _ => noFault_bind (noFault_typed _) fun bias _ =>
    ?_
  refine noFault_bind (noFault_typed _) fun mean _ =>
    noFault_bind (noFault_typed _) fun variance _ => ?_
  refine noFault_floatOnly fun x' out' hx' _ => ?_
  rw [← hx'] at hrank hfits
  refine noFault_bind (Tensor.noFault_size hrank) fun channels hchannels => ?_
  refine noFault_bind (noFault_refuseIf _ _) fun _ hparams => ?_
  have hlengths := length_of_demandPerChannel hparams
  have hsize := Tensor.size_eq_ok hchannels
  refine noFault_bind (Tensor.noFault_mapIndexedM hfits.extent_lt_sizeLimit ?_) fun _ _ =>
    noFault_ok _
  intro index a hindex
  obtain ⟨c, hc, hlt⟩ := Related.get_right hindex hsize
  have hread : ∀ p ∈ [scale.data, bias.data, mean.data, variance.data],
      (.ofOption p[index.getD 1 0]? : Outcome OpError Float32).NoFault := by
    intro p hp
    refine getElem?_of_lt_channels (hlengths p hp) ?_
    rwa [List.getD_eq_getElem?_getD, hc]
  refine noFault_bind (hread mean.data (by simp)) fun _ _ => ?_
  refine noFault_bind (hread variance.data (by simp)) fun _ _ => ?_
  refine noFault_bind (hread scale.data (by simp)) fun _ _ => ?_
  exact noFault_bind (hread bias.data (by simp)) fun _ _ => noFault_ok _

theorem noFault_demandSameCount {t u : Tensor Float32} (h : u.shape = t.shape) :
    (demandSameCount t u : Outcome OpError Unit).NoFault := by
  refine noFault_demand_iff.mpr ?_
  rw [Tensor.count_eq, Tensor.count_eq, h]

theorem InstanceNormalization.safe (op : InstanceNormalization)
    (h : (Operator.instanceNormalization op).Accepts inputs outputs) :
    Safe (op.prepare inputs outputs) := by
  refine safe_demand fun x hx => safe_demand fun scale hscale => safe_demand fun bias hbias => ?_
  refine safe_single fun out hout => safe_ok ?_
  subst hout
  have hfits := h.fits_input hx
  obtain ⟨w, hw, -, hshape⟩ := h.infer_single rfl
  simp only [Operator.infer, infer, Operator.demand_told _ hx, Operator.demand_told _ hscale,
    Operator.demand_told _ hbias, ok_bind] at hw
  obtain ⟨_, -, hw⟩ := bind_eq_ok.mp hw
  obtain ⟨_, -, hw⟩ := bind_eq_ok.mp hw
  obtain ⟨t, ht, hw⟩ := bind_eq_ok.mp hw
  cases hw
  obtain ⟨hrank, hkept⟩ := demandFloat_told ht
  have hsame := h.shape_eq hfits hkept hshape
  refine noFault_bind (noFault_typed _) fun scale _ => noFault_bind (noFault_typed _) fun bias _ =>
    ?_
  refine noFault_floatOnly fun x' out' hx' hout' => ?_
  have hcount : out'.shape = x'.shape := hout'.trans (hsame.trans hx'.symm)
  rw [← hx'] at hrank hfits
  refine noFault_bind (Tensor.noFault_size (by omega)) fun channels hchannels => ?_
  refine noFault_bind (noFault_refuseIf _ _) fun _ hparams => ?_
  have hlengths := length_of_demandPerChannel hparams
  refine noFault_bind ?_ fun length _ => noFault_bind (noFault_demandSameCount hcount) fun _ _ => ?_
  · rw [Layout.checkedCount_eq_ok (hfits.drop 2).extent_lt_sizeLimit]
    exact noFault_ok _
  split_ifs
  · exact noFault_ok _
  refine noFault_bind (noFault_mapM fun piece hpiece => ?_) fun _ _ => noFault_ok _
  have hpos : 0 < channels := by
    by_contra hzero
    have hsplit := Tensor.data_length_split (Tensor.size_eq_ok hchannels)
    rw [Nat.eq_zero_of_not_pos hzero, Nat.mul_zero, Nat.zero_mul] at hsplit
    rw [List.length_eq_zero_iff.mp hsplit, chunks_nil] at hpiece
    cases hpiece
  have hread : ∀ p ∈ [scale.data, bias.data],
      (.ofOption p[piece.2 % channels]? : Outcome OpError Float32).NoFault :=
    fun p hp => getElem?_of_lt_channels (hlengths p hp) (Nat.mod_lt _ hpos)
  refine noFault_bind (hread scale.data (by simp)) fun _ _ => ?_
  exact noFault_bind (hread bias.data (by simp)) fun _ _ => noFault_ok _

theorem Lrn.safe (op : Lrn) (h : (Operator.lrn op).Accepts inputs outputs) :
    Safe (op.prepare inputs outputs) := by
  refine safe_demand fun x hx => safe_single fun out hout => safe_ok ?_
  subst hout
  obtain ⟨w, hw, -, -⟩ := h.infer_single rfl
  simp only [Operator.infer, infer, Operator.demand_told _ hx, ok_bind] at hw
  obtain ⟨_, hsize, hw⟩ := bind_eq_ok.mp hw
  obtain ⟨t, ht, -⟩ := bind_eq_ok.mp hw
  have hrank := (demandFloat_told ht).1
  refine noFault_floatOnly fun x' out' hx' _ => ?_
  refine noFault_bind (Tensor.noFault_size (hx' ▸ hrank)) fun _ _ => ?_
  have hpos := Nat.pos_of_ne_zero (refuseIf_eq_ok.mp hsize)
  exact noFault_bind (noFault_demand_iff.mpr hpos) fun _ _ => noFault_ok _

theorem LayerNormalization.safe (op : LayerNormalization)
    (h : (Operator.layerNormalization op).Accepts inputs outputs) :
    Safe (op.prepare inputs outputs) := by
  refine safe_demand fun x hx => safe_demand fun scale hscale => ?_
  have hfits := h.fits_input hx
  refine safe_bind (Axis.noFault_resolve_value hfits _) fun dim _ => safe_single fun out hout => ?_
  subst hout
  refine safe_ok ?_
  obtain ⟨w, hw, -, hshape⟩ := h.infer_single rfl
  simp only [Operator.infer, infer_eq, Operator.demand_told _ hx, Operator.demand_told _ hscale,
    ok_bind] at hw
  obtain ⟨t, ht, hw⟩ := bind_eq_ok.mp hw
  obtain ⟨_, -, hw⟩ := bind_eq_ok.mp hw
  cases hw
  have hsame := h.shape_eq hfits (demandFloat_told ht).2 hshape
  refine noFault_bind (noFault_typed _) fun s hs => noFault_bind (noFault_typed? _) fun b hb => ?_
  refine noFault_floatOnly fun x' out' hx' hout' => ?_
  have hcount : out'.shape = x'.shape := hout'.trans (hsame.trans hx'.symm)
  have hinner := (hx' ▸ hfits.drop dim).extent_lt_sizeLimit
  have hscale : s.shape.Fits := shape_of_typed hs ▸ h.fits_input hscale
  have hbias : ∀ u, b = some u → u.shape.Fits := by
    rintro u rfl
    obtain ⟨v, hv, hu⟩ := typed?_eq_ok hb
    exact shape_of_typed hu ▸ h.fits_input hv
  unfold fill
  dsimp only
  refine noFault_bind (noFault_refuseIf _ _) fun _ hbroadcast => ?_
  have hbroadcast := refuseIf_eq_ok.mp hbroadcast
  rw [Bool.or_eq_true, not_or, Bool.not_eq_true', Bool.not_eq_false] at hbroadcast
  refine noFault_bind (Tensor.noFault_broadcastElements hbroadcast.1 hscale.extent_lt_sizeLimit
    hinner) fun _ _ => ?_
  cases b with
  | none =>
    refine noFault_bind (noFault_ok _) fun _ _ => ?_
    refine noFault_bind (noFault_demandSameCount hcount) fun _ _ => ?_
    split_ifs <;> exact noFault_ok _
  | some u =>
    have hu : Layout.canBroadcast u.shape (x'.shape.drop dim) = true := by
      simpa using hbroadcast.2
    refine noFault_bind ?_ fun _ _ => noFault_bind (noFault_demandSameCount hcount) fun _ _ => ?_
    · exact Tensor.noFault_broadcastElements hu (hbias u rfl).extent_lt_sizeLimit hinner
    · split_ifs <;> exact noFault_ok _

end TensorGraph
