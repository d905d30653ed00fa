import Mathlib.Data.Set.Function
import TensorGraph.Proofs.Applying
import TensorGraph.Proofs.Safety.Blocks
import TensorGraph.Proofs.Writes

/-! Moves between channels and blocks of pixels, as maps of positions. The pixels of an image
stand one to one for the positions of an image with smaller sides and more channels, so what one
move writes the other one reads. The rules know products and quotients of sizes just where signed
64-bit integers hold them. -/

namespace TensorGraph

open Outcome

variable {ε α : Type}

namespace ChannelOrder

variable {order : ChannelOrder} {c c' i i' j j' block channels k : Nat}

theorem quotient_unique {n q q' r r' : Nat} (hr : r < n) (hr' : r' < n)
    (h : q * n + r = q' * n + r') :
    q = q' ∧ r = r' := by
  have hn : 0 < n := (Nat.zero_le r).trans_lt hr
  obtain ⟨hq, hr⟩ := (Nat.div_mod_unique hn).mpr ⟨show r + n * q = q * n + r by ring, hr⟩
  obtain ⟨hq', hr'⟩ :=
    (Nat.div_mod_unique hn).mpr ⟨show r' + n * q' = q * n + r by rw [h]; ring, hr'⟩
  exact ⟨hq.symm.trans hq', hr.symm.trans hr'⟩

theorem place_injective (hc : c < channels) (hi : i < block) (hj : j < block) (hc' : c' < channels)
    (hi' : i' < block) (hj' : j' < block)
    (h : order.place c i j block channels = order.place c' i' j' block channels) :
    c = c' ∧ i = i' ∧ j = j' := by
  cases order with
  | depthColumnRow =>
    obtain ⟨hpixel, rfl⟩ := quotient_unique hc hc' h
    obtain ⟨rfl, rfl⟩ := quotient_unique hj hj' hpixel
    exact ⟨rfl, rfl, rfl⟩
  | columnRowDepth =>
    have hrow : (c * block + i) * block + j = (c' * block + i') * block + j' := by
      simpa only [place, Nat.add_mul] using h
    obtain ⟨hgroup, rfl⟩ := quotient_unique hj hj' hrow
    obtain ⟨rfl, rfl⟩ := quotient_unique hi hi' hgroup
    exact ⟨rfl, rfl, rfl⟩

theorem exists_place (order : ChannelOrder) (hk : k < block * block * channels) :
    ∃ c < channels, ∃ i < block, ∃ j < block, order.place c i j block channels = k := by
  have hchannels : 0 < channels := Nat.pos_of_ne_zero fun h => by simp [h] at hk
  have hblock : 0 < block := Nat.pos_of_ne_zero fun h => by simp [h] at hk
  cases order with
  | depthColumnRow =>
    have hpixel : k / channels < block * block := Nat.div_lt_of_lt_mul (by rwa [Nat.mul_comm])
    refine ⟨k % channels, Nat.mod_lt _ hchannels, k / channels / block, Nat.div_lt_of_lt_mul hpixel,
      k / channels % block, Nat.mod_lt _ hblock, ?_⟩
    rw [place, Nat.div_add_mod', Nat.div_add_mod']
  | columnRowDepth =>
    have hgroup : k / block < block * channels := Nat.div_lt_of_lt_mul (by rwa [← Nat.mul_assoc])
    refine ⟨k / block / block, Nat.div_lt_of_lt_mul hgroup, k / block % block, Nat.mod_lt _ hblock,
      k % block, Nat.mod_lt _ hblock, ?_⟩
    rw [place, ← Nat.add_mul, Nat.div_add_mod', Nat.div_add_mod']

end ChannelOrder

namespace Blocks

variable {order : ChannelOrder} {block channels n r w : Nat}

/-- The position that stands for a pixel of an image with `channels` channels. -/
def inward (order : ChannelOrder) (block channels : Nat) (index : Index) : Index :=
  match index with
  | [n, c, h, w] => [n, order.place c (h % block) (w % block) block channels, h / block, w / block]
  | index => index

/-- The positions of an image correspond one to one to those of one with smaller sides and as many
times more channels. -/
theorem bijOn_inward (order : ChannelOrder) (hblock : 0 < block) (n channels r w : Nat) :
    Set.BijOn (inward order block channels)
    {index | List.Forall₂ (· < ·) index [n, channels, r * block, w * block]}
    {index | List.Forall₂ (· < ·) index [n, block * block * channels, r, w]} := by
  have hmod : ∀ p, p % block < block := fun p => Nat.mod_lt p hblock
  refine ⟨fun index hindex => ?_, fun index hindex other hother heq => ?_, fun index hindex => ?_⟩
  · obtain ⟨i, hi, k, hk, p, hp, q, hq, rfl⟩ := lt_iff.mp hindex
    have hp : p / block < r := Nat.div_lt_of_lt_mul (by rwa [Nat.mul_comm])
    have hq : q / block < w := Nat.div_lt_of_lt_mul (by rwa [Nat.mul_comm])
    exact lt_iff.mpr ⟨i, hi, _, order.place_lt hk (hmod p) (hmod q), _, hp, _, hq, rfl⟩
  · obtain ⟨i, -, k, hk, p, -, q, -, rfl⟩ := lt_iff.mp hindex
    obtain ⟨i', -, k', hk', p', -, q', -, rfl⟩ := lt_iff.mp hother
    simp only [inward, List.cons.injEq, and_true] at heq
    obtain ⟨rfl, hplace, hp, hq⟩ := heq
    obtain ⟨rfl, hp', hq'⟩ :=
      ChannelOrder.place_injective hk (hmod p) (hmod q) hk' (hmod p') (hmod q') hplace
    rw [← Nat.div_add_mod' p block, ← Nat.div_add_mod' q block, hp, hp', hq, hq', Nat.div_add_mod',
      Nat.div_add_mod']
  · obtain ⟨i, hi, k, hk, p, hp, q, hq, rfl⟩ := lt_iff.mp hindex
    obtain ⟨c, hc, r, hr, s, hs, rfl⟩ := order.exists_place hk
    have hlt : ∀ {a b m : Nat}, a < m → b < block → a * block + b < m * block := by
      intro a b m ha hb
      have hle := Nat.mul_le_mul_right block (Nat.succ_le_of_lt ha)
      rw [Nat.succ_mul] at hle
      omega
    refine ⟨[i, c, p * block + r, q * block + s], ?_, ?_⟩
    · exact lt_iff.mpr ⟨i, hi, c, hc, _, hlt hp hr, _, hlt hq hs, rfl⟩
    · simp only [inward, Nat.mul_comm _ block, Nat.mul_add_mod, Nat.mod_eq_of_lt,
        Nat.mul_add_div hblock, hr, hs, Nat.div_eq_of_lt, Nat.add_zero]

/-- Whether an image has the elements of one with smaller sides and more channels, each at the
position that stands for its own. -/
structure Moved (order : ChannelOrder) (block n channels r w : Nat) (y x : Tensor α) : Prop where
  wide : y.shape = [n, channels, r * block, w * block]
  deep : x.shape = [n, block * block * channels, r, w]
  reads : ∀ index, List.Forall₂ (· < ·) index y.shape →
    y.get? index = x.get? (inward order block channels index)

namespace Moved

variable {x x' y y' : Tensor α}

theorem eq_wide (hy : Moved order block n channels r w y x)
    (hy' : Moved order block n channels r w y' x) :
    y = y' := by
  have hshape : y.shape = y'.shape := hy.wide.trans hy'.wide.symm
  refine Tensor.ext_get? hshape fun index hindex => ?_
  rw [hy.reads index hindex, hy'.reads index (hshape ▸ hindex)]

theorem eq_deep (hblock : 0 < block) (hx : Moved order block n channels r w y x)
    (hx' : Moved order block n channels r w y x') : x = x' := by
  refine Tensor.ext_get? (hx.deep.trans hx'.deep.symm) fun index hindex => ?_
  rw [hx.deep] at hindex
  obtain ⟨source, hsource, rfl⟩ := (bijOn_inward order hblock n channels r w).surjOn hindex
  have hsource : List.Forall₂ (· < ·) source y.shape := hx.wide ▸ hsource
  rw [← hx.reads source hsource, hx'.reads source hsource]

end Moved

end Blocks

/-- Whether the positions of one tensor correspond to those of another one that has the same
elements there. -/
def Tensor.Rearranges (y x : Tensor α) : Prop :=
  ∃ source : Index → Index, Set.BijOn source {index | List.Forall₂ (· < ·) index y.shape}
    {index | List.Forall₂ (· < ·) index x.shape} ∧
      ∀ index, List.Forall₂ (· < ·) index y.shape → y.get? index = x.get? (source index)

theorem Blocks.Moved.rearranges {order : ChannelOrder} {block n channels r w : Nat} {y x : Tensor α}
    (hblock : 0 < block) (h : Moved order block n channels r w y x) : y.Rearranges x := by
  refine ⟨inward order block channels, ?_, h.reads⟩
  rw [h.wide, h.deep]
  exact bijOn_inward order hblock n channels r w

open Blocks

namespace DepthToSpace

variable {op : DepthToSpace} {n channels r w : Nat} {index : Index}

theorem source_eq_ok (hblock : 0 < op.block) (hlimit : op.block * op.block * channels < sizeLimit)
    (hindex : List.Forall₂ (· < ·) index [n, channels, r, w]) :
    (op.source channels index : Outcome ε Index) =
      .ok (inward op.order op.block channels index) := by
  obtain ⟨i, -, k, hk, p, -, q, -, rfl⟩ := lt_iff.mp hindex
  have hread : (coordinates [i, k, p, q] : Outcome ε _) = .ok (i, k, p, q) := rfl
  rw [source, hread, ok_bind]
  refine bind_eq_ok.mpr ⟨(), if_pos hblock.ne', ?_⟩
  exact bind_eq_ok.mpr
    ⟨_, op.order.channel_eq_ok hk (Nat.mod_lt p hblock) (Nat.mod_lt q hblock) hlimit, rfl⟩

theorem exists_fill {x out : Tensor α} (hblock : 0 < op.block)
    (hlimit : op.block * op.block * channels < sizeLimit) (hcount : out.shape.Counted)
    (hx : x.shape = [n, op.block * op.block * channels, r, w])
    (hout : out.shape = [n, channels, r * op.block, w * op.block]) :
    ∃ y, (op.fill x out : Outcome ε (Tensor α)) = .ok y ∧
      Moved op.order op.block n channels r w y x := by
  have hchannels : (out.size 1 : Outcome ε Nat) = .ok channels := by
    rw [Tensor.size, hout]
    rfl
  have hsource : ∀ index, List.Forall₂ (· < ·) index out.shape →
      (op.source channels index : Outcome ε Index) =
        .ok (inward op.order op.block channels index) :=
    fun index hindex => source_eq_ok hblock hlimit (hout ▸ hindex)
  have hsteps : ∀ index old, List.Forall₂ (· < ·) index out.shape →
      (op.source channels index >>= fun place => .ok ((x.get? place).getD old) : Outcome ε α) =
        .ok ((x.get? (inward op.order op.block channels index)).getD old) := by
    intro index old hindex
    rw [hsource index hindex, ok_bind]
  obtain ⟨y, hy⟩ :=
    Tensor.exists_mapIndexedM hcount fun index old hindex => ⟨_, hsteps index old hindex⟩
  have hshape : y.shape = out.shape := Tensor.keepsShape_mapIndexedM _ _ _ hy
  have hfill : (op.fill x out : Outcome ε (Tensor α)) = .ok y := by
    rw [fill, hchannels, ok_bind]
    exact hy
  refine ⟨y, hfill, hshape.trans hout, hx, fun index hindex => ?_⟩
  rw [hshape] at hindex
  obtain ⟨old, b, hb, hread⟩ := Tensor.get?_mapIndexedM hy hindex
  rw [hsteps index old hindex] at hread
  -- the place is inside, so that nothing that was there before is left
  have hplace := (bijOn_inward op.order hblock n channels r w).mapsTo (hout ▸ hindex)
  obtain ⟨a, ha⟩ := Option.isSome_iff_exists.mp (Tensor.isSome_get?_iff.mpr (hx ▸ hplace))
  rw [ha, Option.getD_some] at hread
  cases hread
  rw [hb, ha]

end DepthToSpace

namespace SpaceToDepth

variable {op : SpaceToDepth} {n channels r w : Nat} {index : Index}

theorem target_eq_ok (hblock : 0 < op.block) (hlimit : op.block * op.block * channels < sizeLimit)
    (hindex : List.Forall₂ (· < ·) index [n, channels, r, w]) :
    (op.target channels index : Outcome ε Index) =
      .ok (inward .depthColumnRow op.block channels index) := by
  have hsource : (op.target channels index : Outcome ε Index) =
      DepthToSpace.source ⟨op.block, .depthColumnRow⟩ channels index := rfl
  rw [hsource, DepthToSpace.source_eq_ok hblock hlimit hindex]

theorem exists_fill {y out : Tensor α} (hblock : 0 < op.block)
    (hlimit : op.block * op.block * channels < sizeLimit) (hcount : y.shape.Counted)
    (hy : y.shape = [n, channels, r * op.block, w * op.block])
    (hout : out.shape = [n, op.block * op.block * channels, r, w]) :
    ∃ x, (op.fill y out : Outcome ε (Tensor α)) = .ok x ∧
      Moved .depthColumnRow op.block n channels r w y x := by
  have hchannels : (y.size 1 : Outcome ε Nat) = .ok channels := by
    rw [Tensor.size, hy]
    rfl
  have htarget : ∀ index, List.Forall₂ (· < ·) index y.shape →
      (op.target channels index : Outcome ε Index) =
        .ok (inward .depthColumnRow op.block channels index) :=
    fun index hindex => target_eq_ok hblock hlimit (hy ▸ hindex)
  have hentries : ((Index.all y.shape).zip y.data).mapM
      (fun s => op.target channels s.1 >>= fun place => .ok (place, s.2) : _ →
        Outcome ε (Index × α)) =
        .ok (y.moved (inward .depthColumnRow op.block channels)) := by
    rw [Tensor.moved, mapM_eq_ok, List.forall₂_map_right_iff, List.forall₂_same]
    intro s hs
    rw [htarget s.1 (Index.lt_of_mem_all (List.of_mem_zip hs).1), ok_bind]
  have hbij := bijOn_inward .depthColumnRow hblock n channels r w
  refine ⟨out.write (y.moved (inward .depthColumnRow op.block channels)), ?_, hy,
    (Tensor.shape_write _ _).trans hout, fun index hindex => ?_⟩
  · rw [fill, hchannels, ok_bind, Layout.checkedAll_eq, if_pos hcount, ok_bind]
    exact bind_eq_ok.mpr ⟨_, hentries, rfl⟩
  · exact (Tensor.get?_write_moved (hy ▸ hbij.injOn) hindex (hout ▸ hbij.mapsTo (hy ▸ hindex))).symm

end SpaceToDepth

namespace SymDim

variable {m n k : Nat} {d : SymDim}

theorem lt_of_sizeOf?_mul (hm : m < sizeLimit) (hn : 0 < n ∧ n < intLimit)
    (h : SymShape.sizeOf? (ofSize m * ofSize n) = some k) : m * n < intLimit := by
  obtain ⟨hd, hk⟩ := SymShape.sizeOf?_eq_some_iff.mp h
  have hprod := toInt_of_mul hd
  rw [toInt_intOfSize hk, toInt_intOfSize hn.2] at hprod
  by_cases hsmall : m < intLimit
  · rw [toInt_intOfSize hsmall] at hprod
    have hprod : k = m * n := by exact_mod_cast hprod
    omega
  · have hneg := toInt_intOfSize_neg (not_lt.mp hsmall) hm
    have hprodneg := Int.mul_neg_of_neg_of_pos hneg (Int.natCast_pos.mpr hn.1)
    omega

theorem lt_of_sizeOf?_floorDiv (hm : m < sizeLimit) (hn : 0 < n ∧ n < intLimit)
    (hd : ((ofSize m).floorDiv (ofSize n) : Outcome ε SymDim) = .ok d)
    (h : SymShape.sizeOf? d = some k) :
    m < intLimit := by
  obtain ⟨rfl, hk⟩ := SymShape.sizeOf?_eq_some_iff.mp h
  have hint := toInt_intOfSize hn.2
  have hquot := toInt_of_floorDiv (by omega) hd
  rw [toInt_intOfSize hk, hint] at hquot
  by_contra hlarge
  have hneg := toInt_intOfSize_neg (not_lt.mp hlarge) hm
  have hquotneg := Int.ediv_neg_of_neg_of_pos hneg (Int.natCast_pos.mpr hn.1)
  omega

end SymDim

namespace Blocks

variable {block n c r w : Nat} {v : Value}

/-- Whether signed 64-bit integers hold the sizes of an image and of the one with smaller sides. -/
structure Sized (block n channels r w : Nat) : Prop where
  items : n < intLimit
  channels : block * block * channels < intLimit
  rows : r * block < intLimit
  columns : w * block < intLimit

theorem Sized.channels_lt {channels : Nat} (h : Sized block n channels r w) :
    block * block * channels < sizeLimit :=
  h.channels.trans (by decide)

theorem bounds (hblock : 0 < block) (hfits : block * block < intLimit) :
    (0 < block ∧ block < intLimit) ∧ 0 < block * block ∧ block * block < intLimit :=
  ⟨⟨hblock, (Nat.le_mul_self block).trans_lt hfits⟩, Nat.mul_pos hblock hblock, hfits⟩

theorem sized_iff {channels : Nat} (hblock : 0 < block) : Sized block n channels r w ↔
    ∀ size ∈ [n, block * block * channels, r, w] ++ [n, channels, r * block, w * block],
      size < intLimit := by
  simp only [List.cons_append, List.nil_append, List.forall_mem_cons]
  constructor
  · rintro ⟨hn, hc, hr, hw⟩
    have hfew := (Nat.le_mul_of_pos_left channels (Nat.mul_pos hblock hblock)).trans_lt hc
    exact ⟨hn, hc, (Nat.le_mul_of_pos_right r hblock).trans_lt hr,
      (Nat.le_mul_of_pos_right w hblock).trans_lt hw, hn, hfew, hr, hw, by simp⟩
  · rintro ⟨hn, hc, -, -, -, -, hr, hw, -⟩
    exact ⟨hn, hc, hr, hw⟩

theorem dims_eq_ok (hblock : 0 < block) (hv : v.shape = [n, c, r, w]) :
    dims v.toShapeOnly block = .ok (.ofSize n, .ofSize c, .ofSize r, .ofSize w) := by
  have hrank : v.toShapeOnly.shape.declareRank 4 = .ok (.ofShape [n, c, r, w]) := by
    rw [Value.shape_toShapeOnly, hv]
    rfl
  rw [dims, refuseIf_neg hblock.ne', ok_bind, hrank, ok_bind]
  rfl

theorem area_eq_ok (hfits : block * block < intLimit) :
    (area block : Outcome ε SymDim) = .ok (.ofSize (block * block)) := by
  have hlimit := intLimit_eq
  have hblock : block < intLimit := (Nat.le_mul_self block).trans_lt hfits
  have hword := toInt_intOfSize hblock
  have hsquare : FitsInt ((intOfSize block).toInt * (intOfSize block).toInt) := by
    rw [hword, ← Int.natCast_mul]
    unfold FitsInt
    omega
  obtain ⟨a, ha, hvalue⟩ := exists_checkInt (ε := ε) hsquare
  rw [hword, ← Int.natCast_mul] at hvalue
  rw [area, ha, ok_bind, ← SymDim.size_eq_ofSize hfits hvalue]
  rfl

theorem demandMultiple_eq_ok {d m : Nat} (hm : m < intLimit) (hd : 0 < d ∧ d < intLimit)
    (h : d ∣ m) : demandMultiple (.ofSize m) d = .ok () := by
  have hword := toInt_intOfSize hd.2
  have hdivides : (divInt (intOfSize m) (intOfSize d) : Outcome RuleError Int64).NoFault :=
    noFault_divInt_iff.mpr (by omega)
  cases hrem : (remInt (intOfSize m) (intOfSize d) : Outcome RuleError Int64) with
  | ok r =>
    have hvalue := remInt_eq_ok hrem
    rw [toInt_intOfSize hm, hword, Int.tmod_eq_zero_of_dvd (Int.natCast_dvd_natCast.mpr h)]
      at hvalue
    have hzero : r = 0 := Int64.toInt_inj.mp (hvalue.trans Int64.toInt_zero.symm)
    rw [demandMultiple, SymDim.ofSize]
    simp [SymDim.value?, hrem, hzero, refuseIf]
  | error e =>
    refine absurd hrem (bind_ne_error ?_ fun _ _ => by simp)
    exact bind_ne_error (demand_ne_error e) fun _ _ => checkInt_ne_error _ e
  | fault => exact absurd hrem (noFault_remInt hdivides)

end Blocks

namespace DepthToSpace

variable {op : DepthToSpace} {n channels r w : Nat} {v : Value} (hblock : 0 < op.block)
  (hfits : op.block * op.block < intLimit)

include hblock hfits

theorem infer_eq {c : Nat} (hv : v.shape = [n, c, r, w]) : op.infer [some v.toShapeOnly] =
      demandMultiple (.ofSize c) (op.block * op.block) >>= fun _ =>
        (SymDim.ofSize c).floorDiv (.ofSize (op.block * op.block)) >>= fun d =>
          .ok [.ofShape v.dtype (.ranked [.ofSize n, d, .ofSize r * .ofSize op.block,
            .ofSize w * .ofSize op.block])] := by
  have hsquare : (checkSize (op.block * op.block) : Outcome RuleError Nat) =
      .ok (op.block * op.block) :=
    checkSize_eq_ok.mpr ⟨hfits.trans (by decide), rfl⟩
  have hdemand : SymInputs.demand [some v.toShapeOnly] 0 = .ok v.toShapeOnly := rfl
  rw [infer, hdemand, ok_bind, dims_eq_ok hblock hv, ok_bind]
  dsimp only
  rw [hsquare, ok_bind, area_eq_ok hfits, ok_bind]
  rfl

/-- The rule settles the shape where signed 64-bit integers hold the sizes on both sides. -/
theorem infer_eq_ok (hv : v.shape = [n, op.block * op.block * channels, r, w])
    (hsizes : Sized op.block n channels r w) : op.infer [some v.toShapeOnly] =
      .ok [.ofShape v.dtype (.ofShape [n, channels, r * op.block, w * op.block])] := by
  obtain ⟨-, harea⟩ := bounds hblock hfits
  rw [infer_eq hblock hfits hv, demandMultiple_eq_ok hsizes.channels harea (Nat.dvd_mul_right _ _),
    ok_bind, SymDim.floorDiv_ofSize hsizes.channels harea, ok_bind,
    Nat.mul_div_cancel_left _ harea.1, SymDim.ofSize_mul hsizes.rows,
    SymDim.ofSize_mul hsizes.columns]
  rfl

theorem sized_of_infer {s : SymTensor} {shape : Shape}
    (hv : v.shape = [n, op.block * op.block * channels, r, w])
    (hlimit : ∀ size ∈ v.shape, size < sizeLimit) (h : op.infer [some v.toShapeOnly] = .ok [s])
    (hshape : s.shape.toShape? = some shape) :
    Sized op.block n channels r w := by
  rw [hv] at hlimit
  simp only [List.forall_mem_cons] at hlimit
  obtain ⟨hn, hc, hr, hw, -⟩ := hlimit
  obtain ⟨hb, harea⟩ := bounds hblock hfits
  rw [infer_eq hblock hfits hv] at h
  obtain ⟨_, -, h⟩ := bind_eq_ok.mp h
  obtain ⟨d, hd, h⟩ := bind_eq_ok.mp h
  cases h
  have hdims := SymShape.exists_sizeOf? hshape
  simp only [List.forall_mem_cons] at hdims
  obtain ⟨⟨_, hitems⟩, ⟨_, hchannels⟩, ⟨_, hrows⟩, ⟨_, hcolumns⟩, -⟩ := hdims
  exact ⟨SymShape.lt_of_sizeOf?_ofSize hn hitems,
    SymDim.lt_of_sizeOf?_floorDiv hc harea hd hchannels,
    SymDim.lt_of_sizeOf?_mul hr hb hrows, SymDim.lt_of_sizeOf?_mul hw hb hcolumns⟩

end DepthToSpace

namespace SpaceToDepth

variable {op : SpaceToDepth} {n channels r w : Nat} {v : Value} (hblock : 0 < op.block)
  (hfits : op.block * op.block < intLimit)

include hblock hfits

theorem infer_eq (hv : v.shape = [n, channels, r, w]) : op.infer [some v.toShapeOnly] =
      demandMultiple (.ofSize r) op.block >>= fun _ => demandMultiple (.ofSize w) op.block >>=
      fun _ =>
        (SymDim.ofSize r).floorDiv (.ofSize op.block) >>= fun d =>
          (SymDim.ofSize w).floorDiv (.ofSize op.block) >>= fun e =>
            .ok [.ofShape v.dtype
            (.ranked [.ofSize n, .ofSize channels * .ofSize (op.block * op.block), d,
              e])] := by
  have hdemand : SymInputs.demand [some v.toShapeOnly] 0 = .ok v.toShapeOnly := rfl
  rw [infer, hdemand, ok_bind, dims_eq_ok hblock hv, ok_bind]
  dsimp only
  rw [area_eq_ok hfits]
  rfl

/-- The rule settles the shape where signed 64-bit integers hold the sizes on both sides. -/
theorem infer_eq_ok (hv : v.shape = [n, channels, r * op.block, w * op.block])
    (hsizes : Sized op.block n channels r w) : op.infer [some v.toShapeOnly] =
      .ok [.ofShape v.dtype (.ofShape [n, op.block * op.block * channels, r, w])] := by
  obtain ⟨hb, -⟩ := bounds hblock hfits
  rw [infer_eq hblock hfits hv, demandMultiple_eq_ok hsizes.rows hb (Nat.dvd_mul_left _ _), ok_bind,
    demandMultiple_eq_ok hsizes.columns hb (Nat.dvd_mul_left _ _), ok_bind,
    SymDim.floorDiv_ofSize hsizes.rows hb, ok_bind, SymDim.floorDiv_ofSize hsizes.columns hb,
    ok_bind, Nat.mul_div_cancel _ hblock, Nat.mul_div_cancel _ hblock,
    SymDim.ofSize_mul (Nat.mul_comm channels _ ▸ hsizes.channels), Nat.mul_comm channels]
  rfl

theorem sized_of_infer {s : SymTensor} {shape : Shape}
    (hv : v.shape = [n, channels, r * op.block, w * op.block])
    (hlimit : ∀ size ∈ v.shape, size < sizeLimit) (h : op.infer [some v.toShapeOnly] = .ok [s])
    (hshape : s.shape.toShape? = some shape) :
    Sized op.block n channels r w := by
  rw [hv] at hlimit
  simp only [List.forall_mem_cons] at hlimit
  obtain ⟨hn, hc, hr, hw, -⟩ := hlimit
  obtain ⟨hb, harea⟩ := bounds hblock hfits
  rw [infer_eq hblock hfits hv] at h
  obtain ⟨_, -, h⟩ := bind_eq_ok.mp h
  obtain ⟨_, -, h⟩ := bind_eq_ok.mp h
  obtain ⟨d, hd, h⟩ := bind_eq_ok.mp h
  obtain ⟨e, he, h⟩ := bind_eq_ok.mp h
  cases h
  have hdims := SymShape.exists_sizeOf? hshape
  simp only [List.forall_mem_cons] at hdims
  obtain ⟨⟨_, hitems⟩, ⟨_, hchannels⟩, ⟨_, hrows⟩, ⟨_, hcolumns⟩, -⟩ := hdims
  have hproduct := SymDim.lt_of_sizeOf?_mul hc harea hchannels
  exact ⟨SymShape.lt_of_sizeOf?_ofSize hn hitems, Nat.mul_comm channels _ ▸ hproduct,
    SymDim.lt_of_sizeOf?_floorDiv hr hb hd hrows, SymDim.lt_of_sizeOf?_floorDiv hw hb he hcolumns⟩

end SpaceToDepth

namespace Blocks

variable {block n channels r w : Nat}

theorem volume_eq (block n channels r w : Nat) : Shape.volume [n, channels, r * block, w * block] =
    Shape.volume [n, block * block * channels, r, w] := by
  simp only [Shape.volume]
  ring

theorem counted_iff {a b c d : Nat} : Shape.Counted [a, b, c, d] ↔
    a < sizeLimit ∧ a * b < sizeLimit ∧ a * b * c < sizeLimit ∧ a * b * c * d < sizeLimit := by
  have hinits : Shape.Counted [a, b, c, d] ↔ ∀ front ∈ [a, b, c, d].inits, front.prod < sizeLimit :=
    forall_congr' fun front => (imp_congr_left (List.mem_inits front _)).symm
  rw [hinits]
  simp [sizeLimit, Nat.mul_assoc]

/-- The sizes of an image can be counted where those of the one with smaller sides can. -/
theorem counted_wide (hblock : 0 < block) (h : Shape.Counted [n, block * block * channels, r, w]) :
    Shape.Counted [n, channels, r * block, w * block] := by
  rw [counted_iff] at h ⊢
  obtain ⟨hn, hc, hr, hw⟩ := h
  have hwhole : n * channels * (r * block) * (w * block) = n * (block * block * channels) * r *
      w := by ring
  have hrows : n * channels * (r * block) * block = n * (block * block * channels) * r := by ring
  have hchannels : n * channels * (block * block) = n * (block * block * channels) := by ring
  refine ⟨hn, ?_, ?_, hwhole ▸ hw⟩
  · exact (Nat.le_mul_of_pos_right _ (Nat.mul_pos hblock hblock)).trans_lt (hchannels ▸ hc)
  · exact (Nat.le_mul_of_pos_right _ hblock).trans_lt (hrows ▸ hr)

end Blocks

section Stored

variable [Value.Stored α] [Value.Stored.Covered α] {x y : Tensor α} {n channels r w : Nat}

open Value.Stored

namespace Blocks

variable {block : Nat}

theorem held_wide (hblock : 0 < block) (hsizes : Sized block n channels r w) (hx : (wrap x).Held)
    (hdeep : x.shape = [n, block * block * channels, r, w])
    (hy : y.shape = [n, channels, r * block, w * block]) : (wrap y).Held := by
  have hcounted := counted_wide hblock (hdeep ▸ Lawful.shape_wrap x ▸ hx.counted)
  refine hx.of_volume ?_ (by rw [hy, hdeep]; rfl) (hy ▸ hcounted) (by rw [hy, hdeep, volume_eq])
  intro size hsize
  exact ((sized_iff hblock).mp hsizes size (List.mem_append_right _ (hy ▸ hsize))).trans (by decide)

theorem held_deep (hblock : 0 < block) (hsizes : Sized block n channels r w) (hy : (wrap y).Held)
    (hwide : y.shape = [n, channels, r * block, w * block])
    (hx : x.shape = [n, block * block * channels, r, w]) (hcounted : x.shape.Counted) :
    (wrap x).Held := by
  refine hy.of_volume ?_ (by rw [hx, hwide]; rfl) hcounted (by rw [hx, hwide, volume_eq])
  intro size hsize
  exact ((sized_iff hblock).mp hsizes size (List.mem_append_left _ (hx ▸ hsize))).trans (by decide)

end Blocks

namespace DepthToSpace

variable (op : DepthToSpace) (hblock : 0 < op.block) (hfits : op.block * op.block < intLimit)

include hblock hfits

theorem apply_eq_ok (hsizes : Sized op.block n channels r w) (hx : (wrap x).Held)
    (h : Moved op.order op.block n channels r w y x) :
    Chain.reference.apply (.depthToSpace op) [some (wrap x)] = .ok [wrap y] := by
  have hy := held_wide hblock hsizes hx h.deep h.wide
  have hinfer := infer_eq_ok hblock hfits ((Lawful.shape_wrap x).trans h.deep) hsizes
  have hsmall : ∀ size ∈ y.shape, size < intLimit := fun size hsize =>
    (sized_iff hblock).mp hsizes size (List.mem_append_right _ (h.wide ▸ hsize))
  refine Chain.apply_stored (.depthToSpace op) rfl rfl rfl hinfer (Covered.dtype_wrap x y)
    (congrArg SymShape.ofShape h.wide.symm) hsmall hy fun z hz => ?_
  have hcounted : z.shape.Counted := by
    rw [hz, ← Lawful.shape_wrap y]
    exact hy.counted
  obtain ⟨y', hy', hmoved⟩ := exists_fill (ε := OpError) hblock hsizes.channels_lt hcounted h.deep
    (hz.trans h.wide)
  have hrun : (op.prepare [some (wrap x)] [wrap z] >>= fun k => k ()) = op.fill x z >>=
      Kernel.filled :=
    Covered.sameType_wrap x z fun x out => op.fill x out
  rw [Operator.prepare, hrun, hy', hmoved.eq_wide h]
  rfl

theorem exists_apply (hsizes : Sized op.block n channels r w) (hx : (wrap x).Held)
    (hdeep : x.shape = [n, op.block * op.block * channels, r, w]) :
    ∃ y : Tensor α, Moved op.order op.block n channels r w y x ∧
      Chain.reference.apply (.depthToSpace op) [some (wrap x)] = .ok [wrap y] := by
  -- the elements of the input in the shape of the output
  obtain ⟨u, hu⟩ : ∃ u : Tensor α, u.shape = [n, channels, r * op.block, w * op.block] :=
    ⟨⟨_, x.data, by rw [x.length_data, hdeep, volume_eq]⟩, rfl⟩
  have hcounted := (held_wide hblock hsizes hx hdeep hu).counted
  rw [Lawful.shape_wrap] at hcounted
  obtain ⟨y, -, hmoved⟩ := exists_fill (ε := OpError) hblock hsizes.channels_lt hcounted hdeep hu
  exact ⟨y, hmoved, apply_eq_ok op hblock hfits hsizes hx hmoved⟩

/-- Channels are moved into blocks just where signed 64-bit integers hold the sizes on both
sides. -/
theorem apply_iff (hx : (wrap x).Held)
    (hdeep : x.shape = [n, op.block * op.block * channels, r, w]) :
    Chain.reference.apply (.depthToSpace op) [some (wrap x)] = .ok [wrap y] ↔
      Sized op.block n channels r w ∧ Moved op.order op.block n channels r w y x := by
  refine ⟨fun h => ?_, fun ⟨hsizes, hmoved⟩ => apply_eq_ok op hblock hfits hsizes hx hmoved⟩
  obtain ⟨s, shape, hinfer, hshape⟩ := Chain.settled_of_apply rfl rfl h
  have hsizes :=
    sized_of_infer hblock hfits ((Lawful.shape_wrap x).trans hdeep) hx.sizes hinfer hshape
  obtain ⟨y', hmoved, hy'⟩ := exists_apply op hblock hfits hsizes hx hdeep
  cases wrap_injective (List.singleton_inj.mp (ok.inj (h.symm.trans hy')))
  exact ⟨hsizes, hmoved⟩

end DepthToSpace

namespace SpaceToDepth

variable (op : SpaceToDepth) (hblock : 0 < op.block) (hfits : op.block * op.block < intLimit)

include hblock hfits

theorem apply_eq_ok (hsizes : Sized op.block n channels r w) (hy : (wrap y).Held)
    (hcounted : x.shape.Counted) (h : Moved .depthColumnRow op.block n channels r w y x) :
    Chain.reference.apply (.spaceToDepth op) [some (wrap y)] = .ok [wrap x] := by
  have hx := held_deep hblock hsizes hy h.wide h.deep hcounted
  have hinfer := infer_eq_ok hblock hfits ((Lawful.shape_wrap y).trans h.wide) hsizes
  have hsmall : ∀ size ∈ x.shape, size < intLimit := fun size hsize =>
    (sized_iff hblock).mp hsizes size (List.mem_append_left _ (h.deep ▸ hsize))
  refine Chain.apply_stored (.spaceToDepth op) rfl rfl rfl hinfer (Covered.dtype_wrap y x)
    (congrArg SymShape.ofShape h.deep.symm) hsmall hx fun z hz => ?_
  obtain ⟨x', hx', hmoved⟩ := exists_fill (ε := OpError) hblock hsizes.channels_lt
    (Lawful.shape_wrap y ▸ hy.counted) h.wide (hz.trans h.deep)
  have hrun : (op.prepare [some (wrap y)] [wrap z] >>= fun k => k ()) = op.fill y z >>=
      Kernel.filled :=
    Covered.sameType_wrap y z fun y out => op.fill y out
  rw [Operator.prepare, hrun, hx', hmoved.eq_deep hblock h]
  rfl

theorem exists_apply (hsizes : Sized op.block n channels r w) (hy : (wrap y).Held)
    (hwide : y.shape = [n, channels, r * op.block, w * op.block])
    (hcounted : Shape.Counted [n, op.block * op.block * channels, r, w]) :
    ∃ x : Tensor α, Moved .depthColumnRow op.block n channels r w y x ∧
      Chain.reference.apply (.spaceToDepth op) [some (wrap y)] = .ok [wrap x] := by
  -- the elements of the input in the shape of the output
  obtain ⟨u, hu⟩ : ∃ u : Tensor α, u.shape = [n, op.block * op.block * channels, r, w] :=
    ⟨⟨_, y.data, by rw [y.length_data, hwide, volume_eq]⟩, rfl⟩
  obtain ⟨x, -, hmoved⟩ := exists_fill (ε := OpError) hblock hsizes.channels_lt
    (Lawful.shape_wrap y ▸ hy.counted) hwide hu
  exact ⟨x, hmoved, apply_eq_ok op hblock hfits hsizes hy (hmoved.deep ▸ hcounted) hmoved⟩

/-- Blocks are moved into channels just where signed 64-bit integers hold the sizes on both sides,
as far as the sizes of the output can be counted. -/
theorem apply_iff (hy : (wrap y).Held) (hwide : y.shape = [n, channels, r * op.block, w * op.block])
    (hcounted : Shape.Counted [n, op.block * op.block * channels, r, w]) :
    Chain.reference.apply (.spaceToDepth op) [some (wrap y)] = .ok [wrap x] ↔
      Sized op.block n channels r w ∧ Moved .depthColumnRow op.block n channels r w y x := by
  refine ⟨fun h => ?_, fun ⟨hsizes, hmoved⟩ =>
    apply_eq_ok op hblock hfits hsizes hy (hmoved.deep ▸ hcounted) hmoved⟩
  obtain ⟨s, shape, hinfer, hshape⟩ := Chain.settled_of_apply rfl rfl h
  have hsizes :=
    sized_of_infer hblock hfits ((Lawful.shape_wrap y).trans hwide) hy.sizes hinfer hshape
  obtain ⟨x', hmoved, hx'⟩ := exists_apply op hblock hfits hsizes hy hwide hcounted
  cases wrap_injective (List.singleton_inj.mp (ok.inj (h.symm.trans hx')))
  exact ⟨hsizes, hmoved⟩

end SpaceToDepth

namespace Blocks

variable {block c : Nat}

/-- Moving channels into blocks rearranges the elements, and moving them back restores the input
where they lie apart. -/
theorem depthToSpace_restores (order : ChannelOrder) (hblock : 0 < block)
    (hfits : block * block < intLimit) (hx : (wrap x).Held) (hshape : x.shape = [n, c, r, w])
    (hdvd : block * block ∣ c) :
    ((∃ y : Tensor α, Chain.reference.apply (.depthToSpace ⟨block, order⟩) [some (wrap x)] =
      .ok [wrap y]) ↔
      ∀ size ∈ x.shape ++ [n, c / (block * block), r * block, w * block], size < intLimit) ∧
    ∀ y : Tensor α, Chain.reference.apply (.depthToSpace ⟨block, order⟩) [some (wrap x)] =
      .ok [wrap y] →
      y.shape = [n, c / (block * block), r * block, w * block] ∧ y.Rearranges x ∧
        (order = .depthColumnRow →
          Chain.reference.apply (.spaceToDepth ⟨block⟩) [some (wrap y)] = .ok [wrap x]) := by
  obtain ⟨channels, rfl⟩ := hdvd
  rw [Nat.mul_div_cancel_left _ (Nat.mul_pos hblock hblock), hshape, ← sized_iff hblock]
  refine ⟨⟨fun ⟨y, hy⟩ => ?_, fun hsizes => ?_⟩, fun y hy => ?_⟩
  · exact ((DepthToSpace.apply_iff ⟨block, order⟩ hblock hfits hx hshape).mp hy).1
  · obtain ⟨y, -, hy⟩ := DepthToSpace.exists_apply ⟨block, order⟩ hblock hfits hsizes hx hshape
    exact ⟨y, hy⟩
  · obtain ⟨hsizes, hmoved⟩ := (DepthToSpace.apply_iff ⟨block, order⟩ hblock hfits hx hshape).mp hy
    refine ⟨hmoved.wide, hmoved.rearranges hblock, ?_⟩
    rintro rfl
    have hcounted := hx.counted
    rw [Lawful.shape_wrap, hshape] at hcounted
    have hy := held_wide hblock hsizes hx hmoved.deep hmoved.wide
    exact (SpaceToDepth.apply_iff ⟨block⟩ hblock hfits hy hmoved.wide hcounted).mpr ⟨hsizes, hmoved⟩

/-- Moving blocks into channels rearranges the elements, and moving them back restores the input. -/
theorem spaceToDepth_restores (hblock : 0 < block) (hfits : block * block < intLimit)
    (hx : (wrap x).Held) (hshape : x.shape = [n, c, r, w]) (hrows : block ∣ r)
    (hcolumns : block ∣ w) (hcounted : Shape.Counted [n, block * block * c, r / block, w / block]) :
    ((∃ y : Tensor α, Chain.reference.apply (.spaceToDepth ⟨block⟩) [some (wrap x)] =
      .ok [wrap y]) ↔
      ∀ size ∈ x.shape ++ [n, block * block * c, r / block, w / block], size < intLimit) ∧
    ∀ y : Tensor α, Chain.reference.apply (.spaceToDepth ⟨block⟩) [some (wrap x)] = .ok [wrap y] →
      y.shape = [n, block * block * c, r / block, w / block] ∧
        Chain.reference.apply (.depthToSpace ⟨block, .depthColumnRow⟩) [some (wrap y)] =
        .ok [wrap x] := by
  obtain ⟨rows, rfl⟩ := exists_eq_mul_left_of_dvd hrows
  obtain ⟨columns, rfl⟩ := exists_eq_mul_left_of_dvd hcolumns
  rw [Nat.mul_div_cancel _ hblock, Nat.mul_div_cancel _ hblock] at hcounted ⊢
  have hcomm : (∀ size ∈ x.shape ++ [n, block * block * c, rows, columns], size < intLimit) ↔
      Sized block n c rows columns := by
    rw [sized_iff hblock, hshape]
    simp only [List.forall_mem_append, and_comm]
  rw [hcomm]
  refine ⟨⟨fun ⟨y, hy⟩ => ?_, fun hsizes => ?_⟩, fun y hy => ?_⟩
  · exact ((SpaceToDepth.apply_iff ⟨block⟩ hblock hfits hx hshape hcounted).mp hy).1
  · obtain ⟨y, -, hy⟩ := SpaceToDepth.exists_apply ⟨block⟩ hblock hfits hsizes hx hshape hcounted
    exact ⟨y, hy⟩
  · obtain ⟨hsizes, hmoved⟩ :=
      (SpaceToDepth.apply_iff ⟨block⟩ hblock hfits hx hshape hcounted).mp hy
    have hy := held_deep hblock hsizes hx hmoved.wide hmoved.deep (hmoved.deep ▸ hcounted)
    exact ⟨hmoved.deep,
      (DepthToSpace.apply_iff ⟨block, .depthColumnRow⟩ hblock hfits hy hmoved.deep).mpr
      ⟨hsizes, hmoved⟩⟩

/-- Whatever the block, channels that are moved into blocks of an image are moved back to the
input, and so are blocks that are moved into channels. Either move takes place just where signed
64-bit integers hold the sizes on both sides. Channels that follow each other are moved one to one
as well. -/
theorem moves_restore (hblock : 0 < block) (hfits : block * block < intLimit) (hx : (wrap x).Held)
    (hshape : x.shape = [n, c, r, w]) :
    (block * block ∣ c → ∀ order,
      ((∃ y : Tensor α, Chain.reference.apply (.depthToSpace ⟨block, order⟩) [some (wrap x)] =
      .ok [wrap y]) ↔
        ∀ size ∈ x.shape ++ [n, c / (block * block), r * block, w * block], size < intLimit) ∧
      ∀ y : Tensor α, Chain.reference.apply (.depthToSpace ⟨block, order⟩) [some (wrap x)] =
      .ok [wrap y] →
        y.shape = [n, c / (block * block), r * block, w * block] ∧ y.Rearranges x ∧
          (order = .depthColumnRow →
            Chain.reference.apply (.spaceToDepth ⟨block⟩) [some (wrap y)] = .ok [wrap x])) ∧
    (block ∣ r → block ∣ w → Shape.Counted [n, block * block * c, r / block, w / block] →
      ((∃ y : Tensor α, Chain.reference.apply (.spaceToDepth ⟨block⟩) [some (wrap x)] =
      .ok [wrap y]) ↔
        ∀ size ∈ x.shape ++ [n, block * block * c, r / block, w / block], size < intLimit) ∧
      ∀ y : Tensor α, Chain.reference.apply (.spaceToDepth ⟨block⟩) [some (wrap x)] = .ok [wrap y] →
        y.shape = [n, block * block * c, r / block, w / block] ∧
          Chain.reference.apply (.depthToSpace ⟨block, .depthColumnRow⟩) [some (wrap y)] =
          .ok [wrap x]) :=
  ⟨fun hdvd order => depthToSpace_restores order hblock hfits hx hshape hdvd,
    spaceToDepth_restores hblock hfits hx hshape⟩

end Blocks

end Stored

namespace Blocks

/-- Two columns of four channels as an image of two rows. -/
theorem moves_restore_columns : ∃ y : Tensor Int64,
    Chain.reference.apply (.depthToSpace ⟨2, .depthColumnRow⟩)
        [some (.int ⟨[1, 4, 1, 2], [0, 1, 2, 3, 4, 5, 6, 7], rfl⟩)] = .ok [.int y] ∧
        y.shape = [1, 1, 2, 4] ∧
      Chain.reference.apply (.spaceToDepth ⟨2⟩) [some (.int y)] =
        .ok [.int ⟨[1, 4, 1, 2], [0, 1, 2, 3, 4, 5, 6, 7], rfl⟩] := by
  have hblock : 0 < 2 := by decide
  have hfits : 2 * 2 < intLimit := by decide
  have hx : (Value.Stored.wrap (⟨[1, 4, 1, 2], [0, 1, 2, 3, 4, 5, 6, 7], rfl⟩ :
      Tensor Int64)).Held := by decide
  obtain ⟨hiff, hrestores⟩ := (moves_restore hblock hfits hx rfl).1 (by decide) .depthColumnRow
  obtain ⟨y, hy⟩ := hiff.mpr (by decide)
  obtain ⟨hshape, -, hback⟩ := hrestores y hy
  exact ⟨y, hy, hshape, hback rfl⟩

/-- Channels of an empty image are not moved where a side of the result is too long for a signed
64-bit integer. -/
theorem depthToSpace_unsettled : (Value.int ⟨[0, 4, 2 ^ 62, 1], [], rfl⟩).Held ∧ 2 * 2 ∣ 4 ∧
    Chain.reference.apply (.depthToSpace ⟨2, .depthColumnRow⟩)
      [some (.int ⟨[0, 4, 2 ^ 62, 1], [], rfl⟩)] =
      .error (.value .outputShape) := by
  refine ⟨by decide, by decide, by decide +kernel⟩

end Blocks

end TensorGraph
