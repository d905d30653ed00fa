import TensorGraph.Proofs.Safety.Calls
import TensorGraph.Proofs.Safety.Sizes

/-! Moves between channels and blocks. A block of a channel holds no more pixels than the other
side has channels, so the channel of each pixel can be counted. -/

namespace TensorGraph

open Outcome Kernel

variable {inputs : ValueInputs} {outputs : List Value} {out x v : Value} {i : Nat} {ε α : Type}

namespace ChannelOrder

/-- The channel that is counted for the pixel in row `i` and column `j` of the block of channel
`c`. -/
def place (order : ChannelOrder) (c i j block channels : Nat) : Nat :=
  match order with
  | depthColumnRow => (i * block + j) * channels + c
  | columnRowDepth => c * block * block + i * block + j

variable (order : ChannelOrder) {c i j block channels : Nat}

/-- A pixel of a block is one of `block * block` times as many channels. -/
theorem place_lt (hc : c < channels) (hi : i < block) (hj : j < block) :
    order.place c i j block channels < block * block * channels := by
  have hrow : (i + 1) * block ≤ block * block := Nat.mul_le_mul_right block hi
  rw [Nat.succ_mul] at hrow
  cases order with
  | depthColumnRow =>
    have hpixel : (i * block + j + 1) * channels ≤ block * block * channels :=
      Nat.mul_le_mul_right channels (by omega)
    rw [Nat.succ_mul] at hpixel
    rw [place]
    omega
  | columnRowDepth =>
    have hgroup : block * block * (c + 1) ≤ block * block * channels := Nat.mul_le_mul_left _ hc
    rw [Nat.mul_succ, Nat.mul_comm _ c, ← Nat.mul_assoc] at hgroup
    rw [place]
    omega

theorem channel_eq_ok (hc : c < channels) (hi : i < block) (hj : j < block)
    (hlimit : block * block * channels < sizeLimit) :
    (order.channel c i j block channels : Outcome ε Nat) =
      .ok (order.place c i j block channels) := by
  have hplace := (order.place_lt hc hi hj).trans hlimit
  cases order with
  | depthColumnRow =>
    rw [place] at hplace
    have hpixel : i * block + j ≤ (i * block + j) * channels := Nat.le_mul_of_pos_right _ (by omega)
    refine bind_eq_ok.mpr ⟨i * block, checkSize_eq_ok.mpr ⟨by omega, rfl⟩, ?_⟩
    refine bind_eq_ok.mpr ⟨i * block + j, checkSize_eq_ok.mpr ⟨by omega, rfl⟩, ?_⟩
    refine bind_eq_ok.mpr ⟨(i * block + j) * channels, checkSize_eq_ok.mpr ⟨by omega, rfl⟩, ?_⟩
    exact checkSize_eq_ok.mpr ⟨hplace, rfl⟩
  | columnRowDepth =>
    rw [place] at hplace
    have hcolumns : c * block ≤ c * block * block := Nat.le_mul_of_pos_right _ (by omega)
    refine bind_eq_ok.mpr ⟨c * block, checkSize_eq_ok.mpr ⟨by omega, rfl⟩, ?_⟩
    refine bind_eq_ok.mpr ⟨c * block * block, checkSize_eq_ok.mpr ⟨by omega, rfl⟩, ?_⟩
    refine bind_eq_ok.mpr ⟨i * block, checkSize_eq_ok.mpr ⟨by omega, rfl⟩, ?_⟩
    refine bind_eq_ok.mpr ⟨c * block * block + i * block, checkSize_eq_ok.mpr ⟨by omega, rfl⟩, ?_⟩
    exact checkSize_eq_ok.mpr ⟨hplace, rfl⟩

theorem noFault_channel (hc : c < channels) (hi : i < block) (hj : j < block)
    (hlimit : block * block * channels < sizeLimit) :
    (order.channel c i j block channels : Outcome ε Nat).NoFault :=
  noFault_of_eq_ok (order.channel_eq_ok hc hi hj hlimit)

end ChannelOrder

namespace Blocks

theorem dims_told {op : Operator} {block : Nat} {p : SymDim × SymDim × SymDim × SymDim}
    (h : dims (op.told i v) block = .ok p) : block ≠ 0 ∧ ∃ n c r w, v.shape = [n, c, r, w] ∧
      p = (.ofSize n, .ofSize c, .ofSize r, .ofSize w) := by
  obtain ⟨_, hblock, h⟩ := bind_eq_ok.mp h
  obtain ⟨s, hs, h⟩ := bind_eq_ok.mp h
  rw [Operator.shape_told] at hs
  obtain ⟨hrank, rfl⟩ := SymShape.declareRank_ofShape hs
  cases h
  obtain ⟨n, c, r, w, hshape⟩ := List.length_eq_four.mp hrank
  refine ⟨refuseIf_eq_ok.mp hblock, n, c, r, w, hshape, ?_⟩
  rw [hshape]
  rfl

theorem lt_iff {index : Index} {n c r w : Nat} : List.Forall₂ (· < ·) index [n, c, r, w] ↔
    ∃ i < n, ∃ k < c, ∃ p < r, ∃ q < w, index = [i, k, p, q] := by
  constructor
  · intro h
    obtain ⟨i, _, hi, hrest, rfl⟩ := List.forall₂_cons_right_iff.mp h
    obtain ⟨k, _, hk, hrest', rfl⟩ := List.forall₂_cons_right_iff.mp hrest
    obtain ⟨p, _, hp, hlast, rfl⟩ := List.forall₂_cons_right_iff.mp hrest'
    obtain ⟨q, _, hq, hnil, rfl⟩ := List.forall₂_cons_right_iff.mp hlast
    cases List.forall₂_nil_right_iff.mp hnil
    exact ⟨i, hi, k, hk, p, hp, q, hq, rfl⟩
  · rintro ⟨i, hi, k, hk, p, hp, q, hq, rfl⟩
    exact .cons hi (.cons hk (.cons hp (.cons hq .nil)))

theorem toInt_of_area {block : Nat} {d : SymDim} (h : (area block : Outcome ε SymDim) = .ok d) :
    ∃ a, d = .size a ∧ a.toInt = (intOfSize block).toInt * (intOfSize block).toInt := by
  obtain ⟨a, ha, h⟩ := bind_eq_ok.mp h
  cases h
  exact ⟨a, rfl, toInt_of_checkInt ha⟩

end Blocks

namespace DepthToSpace

theorem area_mul_channels {op : DepthToSpace} (h : (Operator.depthToSpace op).Accepts inputs [out])
    (hx : Inputs.find? inputs 0 = some x) : op.block ≠ 0 ∧
      ∃ n c r w, out.shape = [n, c, r, w] ∧ op.block * op.block * c < sizeLimit := by
  have hlimit := intLimit_eq
  have hfits := h.fits_input hx
  obtain ⟨w, hw, -, hshape⟩ := h.infer_single rfl
  simp only [Operator.infer, infer, Operator.demand_told _ hx, ok_bind] at hw
  obtain ⟨p, hp, hw⟩ := bind_eq_ok.mp hw
  obtain ⟨hblock, n, c, r, q, hxs, rfl⟩ := Blocks.dims_told hp
  obtain ⟨_, hsquare, hw⟩ := bind_eq_ok.mp hw
  obtain ⟨_, -, hw⟩ := bind_eq_ok.mp hw
  obtain ⟨d, hd, hw⟩ := bind_eq_ok.mp hw
  obtain ⟨k, hk, hw⟩ := bind_eq_ok.mp hw
  cases hw
  refine ⟨hblock, ?_⟩
  have hdims : [SymDim.ofSize n, k, .ofSize r * .ofSize op.block, .ofSize q * .ofSize op.block] =
      out.shape.map .ofSize := SymShape.ranked.inj hshape
  have hrank := congrArg List.length hdims
  rw [List.length_map] at hrank
  obtain ⟨n', c', r', w', hout⟩ := List.length_eq_four.mp hrank.symm
  refine ⟨n', c', r', w', hout, ?_⟩
  have hchannels : c' < countLimit := h.fits_single.size_lt (by simp [hout])
  have hinput : c < countLimit := hfits.size_lt (by simp [hxs])
  simp only [hout, List.map_cons, List.cons.injEq] at hdims
  obtain ⟨-, rfl, -⟩ := hdims
  obtain ⟨a, rfl, harea⟩ := Blocks.toInt_of_area hd
  have hsquare := (checkSize_eq_ok.mp hsquare).1
  unfold countLimit at hchannels hinput
  unfold sizeLimit at hsquare ⊢
  have hsmall : op.block < intLimit := by
    by_contra hlarge
    rw [intLimit_eq] at hlarge
    have := Nat.mul_le_mul (not_lt.mp hlarge) (not_lt.mp hlarge)
    omega
  rw [toInt_intOfSize hsmall] at harea
  have hpos : 0 < a.toInt := by
    rw [harea]
    exact Int.mul_pos (by omega) (by omega)
  have hquot := SymDim.toInt_of_floorDiv hpos hk
  rw [toInt_intOfSize (by omega), toInt_intOfSize (by omega), harea] at hquot
  have hle := Int.mul_ediv_self_le (x := (c : Int)) (k := (op.block : Int) * op.block) (by omega)
  rw [← hquot] at hle
  have hle : op.block * op.block * c' ≤ c := by exact_mod_cast hle
  omega

theorem safe (op : DepthToSpace) (h : (Operator.depthToSpace op).Accepts inputs outputs) :
    Safe (op.prepare inputs outputs) := by
  refine safe_demand fun x hx => safe_single fun out hout => safe_ok ?_
  subst hout
  obtain ⟨hblock, n, c, r, w, hshape, hlimit⟩ := area_mul_channels h hx
  refine noFault_sameType fun x' out' _ hx' hout' => ?_
  refine noFault_bind (Tensor.noFault_size (by simp [hout', hshape])) fun channels hchannels => ?_
  have hchannels := Tensor.size_eq_ok hchannels
  rw [hout', hshape] at hchannels
  cases hchannels
  refine Tensor.noFault_mapIndexedM (hout' ▸ h.fits_single.extent_lt_sizeLimit)
    fun index old hindex => ?_
  rw [hout', hshape] at hindex
  obtain ⟨i, -, k, hk, p, -, q, -, rfl⟩ := Blocks.lt_iff.mp hindex
  have hpos : 0 < op.block := Nat.pos_of_ne_zero hblock
  have hread : (Blocks.coordinates [i, k, p, q] : Outcome OpError _) = .ok (i, k, p, q) := rfl
  refine noFault_bind ?_ fun _ _ => noFault_ok _
  rw [source, hread, ok_bind]
  refine noFault_bind (noFault_demand_iff.mpr hblock) fun _ _ => ?_
  exact noFault_bind (op.order.noFault_channel hk (Nat.mod_lt p hpos) (Nat.mod_lt q hpos) hlimit)
    fun _ _ => noFault_ok _

end DepthToSpace

namespace SpaceToDepth

theorem area_mul_channels {op : SpaceToDepth} (h : (Operator.spaceToDepth op).Accepts inputs [out])
    (hblock : op.block < intLimit) (hx : Inputs.find? inputs 0 = some x) : op.block ≠ 0 ∧
      ∃ n c r w, x.shape = [n, c, r, w] ∧ op.block * op.block * c < sizeLimit := by
  have hlimit := intLimit_eq
  have hfits := h.fits_input hx
  obtain ⟨w, hw, -, hshape⟩ := h.infer_single rfl
  simp only [Operator.infer, infer, Operator.demand_told _ hx, ok_bind] at hw
  obtain ⟨p, hp, hw⟩ := bind_eq_ok.mp hw
  obtain ⟨hpos, n, c, r, q, hxs, rfl⟩ := Blocks.dims_told hp
  obtain ⟨_, -, hw⟩ := bind_eq_ok.mp hw
  obtain ⟨_, -, hw⟩ := bind_eq_ok.mp hw
  obtain ⟨d, hd, hw⟩ := bind_eq_ok.mp hw
  obtain ⟨_, -, hw⟩ := bind_eq_ok.mp hw
  obtain ⟨_, -, hw⟩ := bind_eq_ok.mp hw
  cases hw
  refine ⟨hpos, n, c, r, q, hxs, ?_⟩
  have hdims := (SymShape.ranked.inj hshape).symm
  have hentry : (out.shape.map SymDim.ofSize)[1]? = some (.ofSize c * d) := by rw [hdims]; rfl
  rw [List.getElem?_map] at hentry
  obtain ⟨c', hout, hchannels⟩ := Option.map_eq_some_iff.mp hentry
  have hc' : c' < countLimit := h.fits_single.size_lt (List.mem_of_getElem? hout)
  have hc : c < countLimit := hfits.size_lt (by simp [hxs])
  unfold countLimit at hc hc'
  obtain ⟨a, rfl, harea⟩ := Blocks.toInt_of_area hd
  have hprod := SymDim.toInt_of_mul hchannels.symm
  rw [toInt_intOfSize (by omega), toInt_intOfSize (by omega), harea, toInt_intOfSize hblock]
    at hprod
  have hprod : c' = c * (op.block * op.block) := by exact_mod_cast hprod
  rw [Nat.mul_comm, ← hprod]
  exact hc'.trans (by decide)

theorem safe (op : SpaceToDepth) (h : (Operator.spaceToDepth op).Accepts inputs outputs)
    (hblock : op.block < intLimit) : Safe (op.prepare inputs outputs) := by
  refine safe_demand fun x hx => safe_single fun out hout => safe_ok ?_
  subst hout
  obtain ⟨hne, n, c, r, w, hshape, hlimit⟩ := area_mul_channels h hblock hx
  refine noFault_sameType fun x' out' _ hx' hout' => ?_
  refine noFault_bind (Tensor.noFault_size (by simp [hx', hshape])) fun channels hchannels => ?_
  have hchannels := Tensor.size_eq_ok hchannels
  rw [hx', hshape] at hchannels
  cases hchannels
  rw [hx', Layout.checkedAll_of_extent (h.fits_input hx).extent_lt_sizeLimit, ok_bind]
  refine noFault_bind (noFault_mapM fun e he => ?_) fun _ _ => noFault_ok _
  have hindex := Index.lt_of_mem_all (List.of_mem_zip he).1
  rw [hshape] at hindex
  obtain ⟨i, -, k, hk, p, -, q, -, hcoordinates⟩ := Blocks.lt_iff.mp hindex
  have hpos : 0 < op.block := Nat.pos_of_ne_zero hne
  have hread : (Blocks.coordinates e.1 : Outcome OpError _) = .ok (i, k, p, q) := by
    rw [hcoordinates]
    rfl
  refine noFault_bind ?_ fun _ _ => noFault_ok _
  rw [target, hread, ok_bind]
  refine noFault_bind (noFault_demand_iff.mpr hne) fun _ _ => ?_
  exact noFault_bind (ChannelOrder.noFault_channel _ hk (Nat.mod_lt p hpos) (Nat.mod_lt q hpos)
    hlimit) fun _ _ => noFault_ok _

end SpaceToDepth

end TensorGraph
