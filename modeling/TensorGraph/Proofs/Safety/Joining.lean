import Mathlib.Algebra.BigOperators.Ring.List
import TensorGraph.Proofs.Concrete.Folding
import TensorGraph.Proofs.Kernels.Joining
import TensorGraph.Proofs.NonNegative.Rearranging
import TensorGraph.Proofs.Safety.Elementwise

/-! Operators that join tensors, cut them into pieces or repeat them. Sizes along the axis add up
since all the values fit memory together. -/

namespace TensorGraph

open Outcome Kernel

variable {inputs : ValueInputs} {outputs : List Value} {out x : Value} {ε α : Type}

theorem SymDim.total_ofSize {ns : List Nat} (h : ns.sum < intLimit) :
    total (ns.map ofSize) = ofSize ns.sum := by
  suffices hfold : ∀ m : Nat, m + ns.sum < intLimit →
      (ns.map ofSize).foldl (· + ·) (ofSize m) = ofSize (m + ns.sum) by
    have hall := hfold 0 (by omega)
    rwa [Nat.zero_add] at hall
  clear h
  induction ns with
  | nil => exact fun _ _ => rfl
  | cons n ns ih =>
    intro m hm
    rw [List.sum_cons] at hm
    rw [List.map_cons, List.foldl_cons, ofSize_add (by omega), ih (m + n) (by omega), List.sum_cons,
      Nat.add_assoc]

/-- The sizes along an axis of values that fit memory together have a small sum. -/
theorem Value.FitTogether.sum_lt {vs : List Value} (h : FitTogether vs) {size : Value → Nat}
    (hsize : ∀ v ∈ vs, size v ≤ v.shape.extent) : (vs.map size).sum < countLimit := by
  have hroom : ∀ v ∈ vs, size v * 4 ≤ v.room := by
    intro v hv
    have hbytes : 4 ≤ v.dtype.bytes := by cases v.dtype <;> decide
    exact (Nat.mul_le_mul (hsize v hv) hbytes).trans (Nat.le_add_right _ _)
  have hsum := List.sum_le_sum hroom
  rw [List.sum_map_mul_right] at hsum
  unfold FitTogether at h
  unfold byteLimit at h
  unfold countLimit
  omega

namespace Concat

/-- Known dimensions that agree are those of the first tensor, and the others differ from them on
the axis only. -/
theorem agreeDims_ofSize {a b : Shape} {dim : Nat} (ha : ∀ n ∈ a, n < sizeLimit)
    (hb : ∀ n ∈ b, n < sizeLimit) (hlen : a.length = b.length) {rs : List SymDim}
    (h : agreeDims dim (a.map .ofSize) (b.map .ofSize) = .ok rs) :
    rs = a.map .ofSize ∧ ∀ n, b.set dim n = a.set dim n := by
  have hentries := mapM_eq_ok.mp h
  have hdims : ∀ (k : Nat) (hk : k < a.length) (hk' : k < b.length),
      rs[k]? = some (SymDim.ofSize a[k]) ∧ (k ≠ dim → b[k] = a[k]) := by
    intro k hk hk'
    have hentry : (((a.map SymDim.ofSize).zip (b.map SymDim.ofSize)).zipIdx)[k]? =
        some ((SymDim.ofSize a[k], SymDim.ofSize b[k]), k) := by
      simp [hk, hk']
    obtain ⟨r, hr, hsize⟩ := Related.get_left hentries hentry
    dsimp only at hsize
    rw [hr]
    by_cases hdim : k = dim
    · rw [if_pos hdim] at hsize
      cases hsize
      exact ⟨rfl, fun hne => absurd hdim hne⟩
    · rw [if_neg hdim] at hsize
      have hleft := SymDim.eq_of_refine_left hsize
      have hright := SymDim.eq_of_refine_right hsize
      refine ⟨congrArg some hleft, fun _ => ?_⟩
      refine intOfSize_inj (hb _ (List.getElem_mem _)) (ha _ (List.getElem_mem _)) ?_
      exact SymDim.size.inj (hright.symm.trans hleft)
  have hlength : rs.length = a.length := by
    have hsame := hentries.length_eq
    rw [List.length_zipIdx, List.length_zip, List.length_map, List.length_map, hlen, Nat.min_self]
      at hsame
    exact hsame.symm.trans hlen.symm
  constructor
  · refine List.ext_getElem (by simpa using hlength) fun k hk hk' => Option.some.inj ?_
    rw [← List.getElem?_eq_getElem hk, (hdims k (by omega) (by omega)).1, List.getElem_map]
  · intro n
    refine List.ext_getElem (by simp [hlen]) fun k hk hk' => ?_
    rw [List.getElem_set, List.getElem_set]
    split_ifs with hdim
    · rfl
    · rw [List.length_set] at hk hk'
      exact (hdims k hk' hk).2 (Ne.symm hdim)

theorem foldlM_agreeDims {a : Shape} {shapes : List Shape} {dim : Nat} (ha : ∀ n ∈ a, n < sizeLimit)
    (hshapes : ∀ b ∈ shapes, ∀ n ∈ b, n < sizeLimit) (hlen : ∀ b ∈ shapes, a.length = b.length)
    {ds : List SymDim}
    (h : (shapes.map (·.map SymDim.ofSize)).foldlM (agreeDims dim) (a.map .ofSize) = .ok ds) :
    ds = a.map .ofSize ∧ ∀ b ∈ shapes, ∀ n, b.set dim n = a.set dim n := by
  induction shapes with
  | nil =>
    cases h
    exact ⟨rfl, by simp⟩
  | cons b shapes ih =>
    rw [List.forall_mem_cons] at hshapes hlen
    rw [List.map_cons, List.foldlM_cons] at h
    obtain ⟨rs, hrs, h⟩ := bind_eq_ok.mp h
    obtain ⟨rfl, hb⟩ := agreeDims_ofSize ha hshapes.1 hlen.1 hrs
    obtain ⟨hds, hrest⟩ := ih hshapes.2 hlen.2 h
    exact ⟨hds, List.forall_mem_cons.mpr ⟨hb, hrest⟩⟩

/-- The join of known shapes agrees with each of them off the axis, and holds them all along it. -/
theorem shape_of_outputShape {op : Concat} {first : Shape} {rest : List Shape} {s : SymShape}
    (hshapes : ∀ b ∈ first :: rest, ∀ n ∈ b, n < sizeLimit)
    (h : op.outputShape ((first :: rest).map .ofShape) = .ok s) {dim : Nat}
    (hdim : Axis.resolve first.length op.axis = .ok dim)
    (hsum : ((first :: rest).map (·.getD dim 0)).sum < intLimit) :
    s = .ofShape (first.set dim ((first :: rest).map (·.getD dim 0)).sum) ∧
      ∀ b ∈ first :: rest, b.length = first.length ∧ ∀ n, b.set dim n = first.set dim n := by
  have hdims : ((first :: rest).map SymShape.ofShape).filterMap (·.dims?) =
      (first :: rest).map (·.map .ofSize) := by
    rw [List.filterMap_map, ← List.filterMap_eq_map]
    rfl
  rw [outputShape, hdims, List.map_cons] at h
  obtain ⟨_, hranks, h⟩ := bind_eq_ok.mp h
  have hranks := refuseIf_eq_ok.mp hranks
  have hlen : ∀ b ∈ rest, first.length = b.length := by
    intro b hb
    by_contra hne
    refine hranks (List.any_eq_true.mpr ⟨_, List.mem_map_of_mem hb, ?_⟩)
    simpa using Ne.symm hne
  obtain ⟨dim', hdim', h⟩ := bind_eq_ok.mp h
  rw [List.length_map] at hdim'
  cases hdim'.symm.trans hdim
  obtain ⟨ds, hds, h⟩ := bind_eq_ok.mp h
  rw [List.forall_mem_cons] at hshapes
  obtain ⟨rfl, hagree⟩ := foldlM_agreeDims hshapes.1 hshapes.2 hlen hds
  have htotal : ((first :: rest).map (·.map SymDim.ofSize)).map (·.getD dim .unknown) =
      ((first :: rest).map (·.getD dim 0)).map SymDim.ofSize := by
    rw [List.map_map, List.map_map]
    refine List.map_congr_left fun b hb => ?_
    have hlt : dim < b.length := by
      have hfirst := Axis.resolve_lt hdim
      rcases List.mem_cons.mp hb with rfl | hb
      · exact hfirst
      · exact (hlen b hb) ▸ hfirst
    simp [List.getD_eq_getElem?_getD, hlt]
  rw [← List.map_cons (f := fun b => List.map SymDim.ofSize b), htotal, SymDim.total_ofSize hsum,
    if_pos (by simp)] at h
  cases h
  refine ⟨by simp [SymShape.ofShape, List.map_set], ?_⟩
  refine List.forall_mem_cons.mpr ⟨⟨rfl, fun _ => rfl⟩, fun b hb => ⟨(hlen b hb).symm, hagree b hb⟩⟩

theorem noFault_fill {xs : List (Tensor α)} {dim : Nat} {out : Tensor α} (hout : out.shape.Fits)
    (hdim : dim < out.shape.length)
    (hxs : ∀ x ∈ xs, x.shape.Fits ∧ x.shape.length = out.shape.length ∧
      ∀ n, x.shape.set dim n = out.shape.set dim n)
    (hsum : (xs.map (·.shape.getD dim 0)).sum = out.shape.getD dim 0) :
    (fill xs dim out : Outcome OpError _).NoFault := by
  have hin : dim < out.rank := hdim
  rw [fill, Outcome.demand, if_pos hin, ok_bind, Tensor.outerInner_eq_ok hout.extent_lt_sizeLimit,
    ok_bind]
  dsimp only
  refine Tensor.noFault_writeBlocks ((List.range (Shape.volume (out.shape.take dim))).flatMap
    fun _ => xs.map fun x => x.shape.getD dim 0 * Shape.volume (out.shape.drop (dim + 1))) ?_ ?_
  · refine Related.flatMap fun i hi => ?_
    rw [List.forall₂_map_left_iff, List.forall₂_map_right_iff, List.forall₂_same]
    intro x hx
    obtain ⟨hfits, hlen, hset⟩ := hxs x hx
    have hlt : dim < x.shape.length := hlen ▸ hdim
    have hbefore : x.shape.take dim = out.shape.take dim := by
      have hsame := congrArg (List.take dim) (hset 0)
      rwa [List.take_set_of_le le_rfl, List.take_set_of_le le_rfl] at hsame
    have hafter : x.shape.drop (dim + 1) = out.shape.drop (dim + 1) := by
      have hsame := congrArg (List.drop (dim + 1)) (hset 0)
      rwa [List.drop_set_of_lt (Nat.lt_succ_self dim), List.drop_set_of_lt (Nat.lt_succ_self dim)]
        at hsame
    have hsize : (x.size dim : Outcome OpError Nat) = .ok x.shape[dim] := by
      rw [Tensor.size, List.getElem?_eq_getElem hlt]
      rfl
    have hslice : x.shape[dim] * Shape.volume (out.shape.drop (dim + 1)) =
        Shape.volume (x.shape.drop dim) := by
      rw [List.drop_eq_getElem_cons hlt, hafter]
      rfl
    have hblock := Tensor.data_length_split (List.getElem?_eq_getElem hlt)
    rw [hbefore, hafter, Nat.mul_assoc] at hblock
    rw [List.getD_eq_getElem?_getD, List.getElem?_eq_getElem hlt, Option.getD_some, hsize, ok_bind]
    refine Tensor.isBlock_bind (noFault_checkSize ?_) fun length hlength => ?_
    · rw [hslice]
      exact (hfits.drop dim).volume_lt.trans (by decide)
    · obtain ⟨-, rfl⟩ := checkSize_eq_ok.mp hlength
      refine Tensor.isBlock_block ?_
      rw [hblock, ← Nat.succ_mul]
      exact Nat.mul_le_mul_right _ (List.mem_range.mp hi)
  · have htotal := Tensor.data_length_split (List.getElem?_eq_getElem hdim)
    rw [List.getD_eq_getElem?_getD, List.getElem?_eq_getElem hdim, Option.getD_some] at hsum
    rw [htotal, ← hsum, Nat.mul_assoc, ← List.sum_map_mul_right, Tensor.sum_flatMap_range]

/-- The sizes of the inputs add up to that of the output, which they agree with off the axis. -/
theorem shapes_of_accepts {op : Concat} (h : (Operator.concat op).Accepts inputs [out])
    {first : Value} {rest : List Value} (hgiven : Inputs.given inputs = first :: rest) {dim : Nat}
    (hdim : Axis.resolve first.rank op.axis = .ok dim) :
    ((first :: rest).map fun v => v.shape.getD dim 0).sum = out.shape.getD dim 0 ∧
      ∀ v ∈ first :: rest, v.shape.length = out.shape.length ∧
        ∀ n, v.shape.set dim n = out.shape.set dim n := by
  have hfits : ∀ v ∈ first :: rest, v.shape.Fits := fun v hv =>
    h.room.fits (List.mem_append_left _ (hgiven ▸ hv))
  have hsum : ((first :: rest).map fun v => v.shape.getD dim 0).sum < countLimit :=
    (hgiven ▸ h.room.left).sum_lt fun v _ => Shape.getD_le_extent v.shape dim
  obtain ⟨w, hw, -, hshape⟩ := h.infer_single rfl
  obtain ⟨t, -, hw⟩ := bind_eq_ok.mp hw
  obtain ⟨_, -, hw⟩ := bind_eq_ok.mp hw
  obtain ⟨s, hs, hw⟩ := bind_eq_ok.mp hw
  have hw : w.shape = s := by
    dsimp only at hw
    split at hw <;> cases hw <;> rfl
  have htold : (Inputs.given (inputs.zipIdx.map (Operator.concat op).describeInput)).map (·.shape) =
      ((first :: rest).map Value.shape).map .ofShape := by
    rw [Operator.describeInputs_shapeOnly rfl, ← ValueInputs.described_nil,
      ValueInputs.given_described_nil, hgiven, List.map_map, List.map_map]
    exact List.map_congr_left fun v _ => Value.shape_toShapeOnly v
  rw [htold] at hs
  have hsizes : ∀ b ∈ (first :: rest).map Value.shape, ∀ n ∈ b, n < sizeLimit := by
    intro b hb n hn
    obtain ⟨v, hv, rfl⟩ := List.mem_map.mp hb
    exact (hfits v hv).lt_sizeLimit hn
  have htotal : (((first :: rest).map Value.shape).map (·.getD dim 0)).sum =
      ((first :: rest).map fun v => v.shape.getD dim 0).sum := by
    rw [List.map_map]
    rfl
  obtain ⟨rfl, hagree⟩ := @shape_of_outputShape _ first.shape (rest.map Value.shape) _
    hsizes hs _ hdim (htotal.trans_lt (hsum.trans (by decide)))
  have hout : out.shape = first.shape.set dim
      ((first :: rest).map fun v => v.shape.getD dim 0).sum := by
    rw [← htotal]
    refine h.shape_of_sizes (fun n hn => ?_) hw hshape
    rcases List.mem_or_eq_of_mem_set hn with hn | rfl
    · exact (hfits first List.mem_cons_self).lt_sizeLimit hn
    · exact htotal.trans_lt (hsum.trans (by decide))
  have hlt : dim < first.shape.length := Axis.resolve_lt hdim
  refine ⟨?_, fun v hv => ?_⟩
  · simp [hout, List.getD_eq_getElem?_getD, hlt]
  · obtain ⟨hlen, hset⟩ := hagree v.shape (List.mem_map_of_mem hv)
    refine ⟨by rw [hout, List.length_set, hlen], fun n => ?_⟩
    rw [hout, List.set_set]
    exact hset n

theorem safe (op : Concat) (h : (Operator.concat op).Accepts inputs outputs) :
    Safe (op.prepare inputs outputs) := by
  refine safe_bind (noFault_mapM fun _ _ => noFault_orRefuse _ _) fun vs hvs => ?_
  have hgiven : Inputs.given inputs = vs := ValueInputs.given_of_mapM hvs
  have hfits : ∀ v ∈ vs, v.shape.Fits := fun v hv =>
    h.room.fits (List.mem_append_left _ (hgiven ▸ hv))
  cases vs with
  | nil =>
    obtain ⟨ws, hw, -⟩ := h.infer rfl
    obtain ⟨t, ht, -⟩ := bind_eq_ok.mp hw
    rw [SymInputs.demand_eq_ok, Operator.find?_told] at ht
    obtain ⟨v, hv, -⟩ := Option.map_eq_some_iff.mp ht
    have hmem := SymInputs.mem_given_of_find? hv
    rw [hgiven] at hmem
    cases hmem
  | cons first rest =>
    refine safe_bind (noFault_ok first) fun _ hfirst => ?_
    cases hfirst
    refine safe_bind (Axis.noFault_resolve_value (hfits first List.mem_cons_self) _) fun dim hdim =>
      ?_
    refine safe_single fun out hout => safe_ok ?_
    subst hout
    obtain ⟨hsum, hjoined⟩ := shapes_of_accepts h hgiven (mapError_eq_ok.mp hdim)
    have hlt := Axis.resolve_lt (mapError_eq_ok.mp hdim)
    have hlen : out.shape.length = first.shape.length := by
      rw [(hjoined first List.mem_cons_self).1]
    refine noFault_anyOutput fun out' _ hout' => ?_
    refine noFault_bind (noFault_mapM fun _ _ => noFault_typed _) fun xs hxs => ?_
    have htyped := mapM_eq_ok.mp hxs
    refine noFault_fill (hout' ▸ h.fits_single) (by rw [hout', hlen]; exact hlt) (fun x hx => ?_) ?_
    · obtain ⟨i, hi⟩ := List.getElem?_of_mem hx
      obtain ⟨v, hv, hx⟩ := Related.get_right htyped hi
      have hv := List.mem_of_getElem? hv
      rw [shape_of_typed hx, hout']
      exact ⟨hfits v hv, hjoined v hv⟩
    · have hsizes : List.Forall₂ (· = ·) ((first :: rest).map fun v => v.shape.getD dim 0)
          (xs.map fun x => x.shape.getD dim 0) :=
        Related.map htyped fun v x hx => by rw [shape_of_typed hx]
      rw [List.forall₂_eq_eq_eq] at hsizes
      rw [hout', ← hsum, hsizes]

end Concat

namespace Split

theorem shapes_of_pieces {s : SymTensor} {ds : List SymDim} {dim : Nat} {start : Option Nat}
    {sizes : List SymDim} {ws : List SymTensor}
    (h : (pieces s ds dim start sizes : Outcome ε _) = .ok ws) :
    List.Forall₂ (fun size w => w.shape = .ranked (ds.set dim size)) sizes ws := by
  induction sizes generalizing start ws with
  | nil =>
    cases h
    exact .nil
  | cons size sizes ih =>
    rw [pieces_cons] at h
    obtain ⟨next, -, h⟩ := bind_eq_ok.mp h
    obtain ⟨ts, hts, h⟩ := bind_eq_ok.mp h
    cases h
    exact .cons (shape_piece _ _ _ _ _) (ih hts)

theorem sum_evenSizes {piece count left : Nat} {ns : List Nat} (hns : ∀ n ∈ ns, n < sizeLimit)
    (hleft : left < sizeLimit) (henough : left ≤ piece * count)
    (h : evenSizes piece count left = ns.map .ofSize) : ns.sum = left := by
  induction count generalizing left ns with
  | zero =>
    obtain rfl := List.map_eq_nil_iff.mp h.symm
    exact (Nat.le_zero.mp henough).symm
  | succ count ih =>
    cases ns with
    | nil => cases h
    | cons n ns =>
      rw [List.forall_mem_cons] at hns
      rw [evenSizes, List.map_cons, List.cons.injEq] at h
      rw [Nat.mul_succ] at henough
      obtain rfl : min piece left = n := intOfSize_inj (by omega) hns.1 (SymDim.size.inj h.1)
      have hrest := ih hns.2 (by omega) (by omega) h.2
      rw [List.sum_cons]
      omega

theorem sum_sizes {op : Split} {size : Nat} {listed : Option SymTensor} {ns : List Nat}
    (hsize : size < sizeLimit) (hns : ns.sum < intLimit) (hcount : op.count ≠ 0)
    (h : op.sizes (.ofSize size) listed = .ok (ns.map .ofSize)) : ns.sum = size := by
  have hlimit : intLimit < sizeLimit := by decide
  have hlt : ∀ n ∈ ns, n < sizeLimit := fun n hn =>
    (List.single_le_sum (fun _ _ => Nat.zero_le _) _ hn).trans_lt (by omega)
  have hknown : ∀ {ds : List SymDim}, (op.unknownSizes : Outcome RuleError _) = .ok ds →
      ds ≠ ns.map .ofSize := by
    rintro ds hds rfl
    obtain ⟨_, -, hds⟩ := bind_eq_ok.mp hds
    have hhead := congrArg List.head? (ok.inj hds)
    obtain ⟨count, hcount⟩ := Nat.exists_eq_succ_of_ne_zero hcount
    rw [hcount, List.replicate_succ] at hhead
    cases ns <;> cases hhead
  cases listed with
  | none =>
    have hvalue : (SymDim.ofSize size).value? = some (intOfSize size) := rfl
    rw [sizes, hvalue] at h
    obtain ⟨_, -, h⟩ := bind_eq_ok.mp h
    have heven := ok.inj h
    rw [sizeOfInt_intOfSize hsize] at heven
    have hdiv := Nat.div_add_mod (size + op.count - 1) op.count
    have hrest := Nat.mod_lt (size + op.count - 1) (Nat.pos_of_ne_zero hcount)
    rw [Nat.mul_comm] at hdiv
    exact sum_evenSizes hlt hsize (by omega) heven
  | some t =>
    rw [sizes, listedSizes_eq] at h
    obtain ⟨_, -, h⟩ := bind_eq_ok.mp h
    obtain ⟨s, -, h⟩ := bind_eq_ok.mp h
    cases s with
    | unknown => exact absurd rfl (hknown h)
    | ranked ds =>
      obtain ⟨_, -, h⟩ := bind_eq_ok.mp h
      obtain ⟨_, -, h⟩ := bind_eq_ok.mp h
      obtain ⟨_, htotal, h⟩ := bind_eq_ok.mp h
      cases h
      have htotal := refuseIf_eq_ok.mp htotal
      rw [SymDim.total_ofSize hns] at htotal
      have hequal : intOfSize ns.sum = intOfSize size := by
        simpa [SymDim.ofSize, SymDim.value?] using htotal
      exact intOfSize_inj (by omega) hsize hequal

/-- A known shape that another one becomes when one of its dimensions is replaced. -/
theorem eq_of_set_ofSize {shape out : Shape} (hshape : ∀ n ∈ shape, n < sizeLimit)
    (hout : ∀ n ∈ out, n < sizeLimit) {dim : Nat} (hdim : dim < shape.length) {size : SymDim}
    (h : (shape.map SymDim.ofSize).set dim size = out.map .ofSize) :
    size = .ofSize (out.getD dim 0) ∧ out = shape.set dim (out.getD dim 0) := by
  have hlen := congrArg List.length h
  rw [List.length_set, List.length_map, List.length_map] at hlen
  have hsize := congrArg (fun ds : List SymDim => ds[dim]?) h
  simp only [List.getElem?_set, List.length_map, hdim, if_true, List.getElem?_map,
    List.getElem?_eq_getElem (hlen ▸ hdim), Option.map_some, Option.some.injEq] at hsize
  rw [List.getD_eq_getElem?_getD, List.getElem?_eq_getElem (hlen ▸ hdim), Option.getD_some]
  refine ⟨hsize, SymShape.ofShape_injective hout (fun n hn => ?_) ?_⟩
  · rcases List.mem_or_eq_of_mem_set hn with hn | rfl
    · exact hshape n hn
    · exact hout _ (List.getElem_mem _)
  · rw [SymShape.ofShape, ← h, hsize, ← List.map_set]
    rfl

/-- Each output is the input with another size along the axis, and these add up to the size of the
axis unless 64 bits do not hold their sum. -/
theorem shapes_of_types {op : Split} {types : List ValueType}
    (h : (Operator.split op).checkedTypes inputs = .ok types) (hx : Inputs.find? inputs 0 = some x)
    (hsizes : ∀ n ∈ x.shape, n < sizeLimit) :
    types ≠ [] ∧ ∃ dim, Axis.resolve x.rank op.axis = .ok dim ∧
      (∀ ty ∈ types, ty.dtype = x.dtype ∧ ty.shape = x.shape.set dim (ty.shape.getD dim 0) ∧
        ∀ n ∈ ty.shape, n < intLimit) ∧
      ((types.map (·.shape.getD dim 0)).sum < intLimit →
        (types.map (·.shape.getD dim 0)).sum = x.shape.getD dim 0) := by
  obtain ⟨_, -, htypes⟩ := bind_eq_ok.mp h
  obtain ⟨ws, hw, hlength, htypes⟩ := Operator.inferredTypes_ok htypes
  simp only [Operator.infer, infer, Operator.demand_told _ hx, ok_bind] at hw
  obtain ⟨_, hcount, hw⟩ := bind_eq_ok.mp hw
  have hcount := refuseIf_eq_ok.mp hcount
  simp only [Operator.shape_told, SymShape.ofShape] at hw
  obtain ⟨dim, hdim, hw⟩ := bind_eq_ok.mp hw
  rw [List.length_map] at hdim
  have hlt : dim < x.shape.length := Axis.resolve_lt hdim
  obtain ⟨sizes, hlisted, hw⟩ := bind_eq_ok.mp hw
  have hdtypes := (pieces_ok hw).2
  have hpieces : List.Forall₂ (fun size ty => ty.dtype = x.dtype ∧
      size = SymDim.ofSize (ty.shape.getD dim 0) ∧
        ty.shape = x.shape.set dim (ty.shape.getD dim 0) ∧
        ∀ n ∈ ty.shape, n < intLimit) sizes types := by
    refine Related.trans (shapes_of_pieces hw) ((List.forall₂_and_left _ _).mpr ⟨hdtypes, htypes⟩)
      fun size w ty hpiece htold => ?_
    obtain ⟨hpieced, hdtype, hshape⟩ := htold
    obtain ⟨hknown, hsmall⟩ := SymShape.toShape?_eq_some hshape
    obtain ⟨hsize, hset⟩ :=
      eq_of_set_ofSize hsizes hsmall hlt (SymShape.ranked.inj (hpiece.symm.trans hknown))
    refine ⟨hdtype.symm.trans (hpieced.trans (Operator.dtype_told _ _ _)), hsize, hset, ?_⟩
    exact SymShape.lt_of_toShape? hshape
  refine ⟨fun hnil => ?_, dim, hdim, fun ty hty => ?_, fun hsum => ?_⟩
  · rw [htypes.length_eq, hnil] at hlength
    exact hcount hlength.symm
  · obtain ⟨size, -, hdtype, -, hrest⟩ := Related.of_mem_right hpieces hty
    exact ⟨hdtype, hrest⟩
  · have hsame := List.forall₂_map_right_iff.mpr (hpieces.imp fun _ _ h => h.2.1)
    rw [List.forall₂_eq_eq_eq] at hsame
    have hdimension : (x.shape.map SymDim.ofSize).getD dim .unknown =
        .ofSize (x.shape.getD dim 0) := by
      simp [List.getD_eq_getElem?_getD, hlt]
    have hlist : sizes = (types.map (·.shape.getD dim 0)).map .ofSize := by
      rw [hsame, List.map_map]
      rfl
    rw [hlist, hdimension] at hlisted
    refine sum_sizes ?_ hsum hcount hlisted
    rw [List.getD_eq_getElem?_getD, List.getElem?_eq_getElem hlt, Option.getD_some]
    exact hsizes _ (List.getElem_mem _)

/-- Each output is the input with another size along the axis, and these do not exceed it. -/
theorem shapes_of_accepts {op : Split} (h : (Operator.split op).Accepts inputs outputs)
    (hx : Inputs.find? inputs 0 = some x) {dim : Nat}
    (hdim : Axis.resolve x.rank op.axis = .ok dim) :
    (∀ out ∈ outputs, ∃ n, out.shape = x.shape.set dim n) ∧
      (outputs.map (·.shape.getD dim 0)).sum ≤ x.shape.getD dim 0 := by
  obtain ⟨-, dim', hdim', htypes, hsum⟩ :=
    shapes_of_types h.types hx fun _ => (h.fits_input hx).lt_sizeLimit
  cases hdim'.symm.trans hdim
  rw [List.map_map] at hsum
  refine ⟨fun out hout => ⟨_, (htypes _ (List.mem_map_of_mem hout)).2.1⟩, (hsum ?_).le⟩
  exact (h.room.right.sum_lt fun out _ => Shape.getD_le_extent out.shape dim).trans (by decide)

theorem noFault_fillPieces {t : Tensor α} {outer total start : Nat} {pieces : List (Nat × Tensor α)}
    (ht : outer * total ≤ t.data.length) (hsum : start + (pieces.map Prod.fst).sum ≤ total)
    (hpieces : ∀ p ∈ pieces, outer * p.1 ≤ p.2.data.length) :
    (fillPieces t outer total start pieces : Outcome OpError _).NoFault := by
  induction pieces generalizing start with
  | nil => exact noFault_ok _
  | cons p pieces ih =>
    rw [List.forall_mem_cons] at hpieces
    rw [List.map_cons, List.sum_cons] at hsum
    refine noFault_bind ?_ fun _ _ => noFault_bind (ih (by omega) hpieces.2) fun _ _ => noFault_ok _
    refine Tensor.noFault_writeBlocks_of_length (n := p.1) (fun block hblock => ?_) ?_
    · obtain ⟨i, hi, rfl⟩ := List.mem_map.mp hblock
      refine Tensor.isBlock_block ?_
      have hrun : (i + 1) * total ≤ outer * total := Nat.mul_le_mul_right _ (List.mem_range.mp hi)
      rw [Nat.succ_mul] at hrun
      omega
    · rw [List.length_map, List.length_range]
      exact hpieces.1

theorem noFault_fill {t : Tensor α} {dim : Nat} {outs : List (Tensor α)} (ht : t.shape.Fits)
    (hdim : dim < t.shape.length)
    (houts : ∀ out ∈ outs, out.shape.Fits ∧ ∃ n, out.shape = t.shape.set dim n)
    (hsum : (outs.map (·.shape.getD dim 0)).sum ≤ t.shape.getD dim 0) :
    (fill t dim outs : Outcome OpError _).NoFault := by
  rw [fill, Tensor.outerInner_eq_ok ht.extent_lt_sizeLimit, ok_bind]
  dsimp only
  split_ifs
  · exact noFault_ok _
  have hlength : ∀ out ∈ outs, ∃ n, out.shape.getD dim 0 = n ∧
      (out.size dim : Outcome OpError Nat) = .ok n ∧
        n * Shape.volume (t.shape.drop (dim + 1)) < sizeLimit ∧ out.data.length =
          Shape.volume (t.shape.take dim) * (n * Shape.volume (t.shape.drop (dim + 1))) := by
    intro out hout
    obtain ⟨hfits, n, hn⟩ := houts out hout
    have hsize : out.shape[dim]? = some n := by simp [hn, hdim]
    refine ⟨n, by simp [List.getD_eq_getElem?_getD, hsize], by simp [Tensor.size, hsize], ?_, ?_⟩
    · have hlt : dim < out.shape.length := (List.getElem?_eq_some_iff.mp hsize).1
      have hslice := (hfits.drop dim).volume_lt
      rw [List.drop_eq_getElem_cons hlt, (List.getElem?_eq_some_iff.mp hsize).2, hn,
        List.drop_set_of_lt (Nat.lt_succ_self dim)] at hslice
      exact hslice.trans (by decide)
    · rw [out.length_data, hn, Shape.volume_set hdim, Nat.mul_assoc]
  refine noFault_bind (noFault_mapM fun out hout => ?_) fun lengths hlengths => ?_
  · obtain ⟨n, -, hsize, hsmall, -⟩ := hlength out hout
    rw [hsize, ok_bind]
    exact noFault_checkSize hsmall
  have hpieces : List.Forall₂ (fun length out =>
      length = out.shape.getD dim 0 * Shape.volume (t.shape.drop (dim + 1)) ∧
        out.data.length = Shape.volume (t.shape.take dim) * length) lengths outs := by
    refine List.forall₂_iff_zip.mpr ⟨(mapM_eq_ok.mp hlengths).length_eq.symm,
      fun {length out} hzip => ?_⟩
    have hstep := List.forall₂_zip (mapM_eq_ok.mp hlengths).flip hzip
    obtain ⟨n, hn, hsize, -, hdata⟩ := hlength out (List.of_mem_zip hzip).2
    rw [hsize, ok_bind] at hstep
    obtain ⟨-, rfl⟩ := checkSize_eq_ok.mp hstep
    exact ⟨by rw [hn], hdata⟩
  have hsizes : lengths = outs.map fun out =>
      out.shape.getD dim 0 * Shape.volume (t.shape.drop (dim + 1)) := by
    have hsame := List.forall₂_map_right_iff.mpr (hpieces.imp fun _ _ => And.left)
    rwa [List.forall₂_eq_eq_eq] at hsame
  refine noFault_fillPieces ?_ ?_ fun p hp => ?_
  · change _ * lengths.sum ≤ _
    rw [List.getD_eq_getElem?_getD, List.getElem?_eq_getElem hdim, Option.getD_some] at hsum
    rw [hsizes, List.sum_map_mul_right, ← Nat.mul_assoc,
      Tensor.data_length_split (List.getElem?_eq_getElem hdim)]
    exact Nat.mul_le_mul_right _ (Nat.mul_le_mul_left _ hsum)
  · rw [List.map_fst_zip hpieces.length_eq.le, Nat.zero_add]
    exact le_rfl
  · exact (List.forall₂_zip hpieces hp).2.ge

theorem safe (op : Split) (h : (Operator.split op).Accepts inputs outputs) :
    Safe (op.prepare inputs outputs) := by
  refine safe_demand fun x hx => ?_
  have hfits := h.fits_input hx
  refine safe_bind (Axis.noFault_resolve_value hfits _) fun dim hdim => safe_ok ?_
  have hdim := mapError_eq_ok.mp hdim
  have hlt : dim < x.shape.length := Axis.resolve_lt hdim
  obtain ⟨hshapes, hsum⟩ := shapes_of_accepts h hx hdim
  have hfill : ∀ {α : Type} [Value.Stored α] [Value.Stored.Lawful α] (t : Tensor α),
      t.shape = x.shape → (outputs.mapM (typed α) >>= fun outs => fill t dim outs).NoFault := by
    intro α _ _ t ht
    refine noFault_bind (noFault_mapM fun _ _ => noFault_typed _) fun outs houts => ?_
    have htyped := mapM_eq_ok.mp houts
    refine noFault_fill (ht ▸ hfits) (ht ▸ hlt) (fun out hout => ?_) ?_
    · obtain ⟨i, hi⟩ := List.getElem?_of_mem hout
      obtain ⟨v, hv, hout⟩ := Related.get_right htyped hi
      have hv := List.mem_of_getElem? hv
      rw [shape_of_typed hout, ht]
      exact ⟨h.fits_output hv, hshapes v hv⟩
    · have hsizes : List.Forall₂ (· = ·) (outputs.map fun v => v.shape.getD dim 0)
          (outs.map fun out => out.shape.getD dim 0) :=
        Related.map htyped fun v out hout => by rw [shape_of_typed hout]
      rw [List.forall₂_eq_eq_eq] at hsizes
      rw [← hsizes, ht]
      exact hsum
  cases x with
  | float t =>
    have hfilled := noFault_bind (hfill t rfl) fun outs _ =>
      noFault_ok (some (outs.map Value.float))
    rwa [bind_assoc] at hfilled
  | int t =>
    have hfilled := noFault_bind (hfill t rfl) fun outs _ =>
      noFault_ok (some (outs.map Value.int))
    rwa [bind_assoc] at hfilled

end Split

namespace Tile

theorem mul_eq_zero {r : SymDim} {m : Nat} (hm : m < sizeLimit)
    (h : SymDim.ofSize 0 * r = .ofSize m) : m = 0 := by
  change SymDim.mul (.ofSize 0) r = _ at h
  have hzero : SymDim.mul (.ofSize 0) r = .ofSize 0 := by
    have hone : SymDim.ofSize 0 ≠ .size 1 := by decide
    unfold SymDim.mul
    by_cases hr : r = .size 1
    · rw [if_pos hr]
    · rw [if_neg hr, if_neg hone, if_pos (.inl rfl)]
      rfl
  exact (intOfSize_inj (by decide) hm (SymDim.size.inj (hzero.symm.trans h))).symm

/-- The output has the rank of the input, and it is empty where the input is. -/
theorem shape_out (h : Operator.tile.Accepts inputs [out]) (hx : Inputs.find? inputs 0 = some x) :
    List.Forall₂ (fun n m => n = 0 → m = 0) x.shape out.shape := by
  have hfits := h.fits_single
  obtain ⟨w, hw, -, hshape⟩ := h.infer_single rfl
  simp only [Operator.infer, infer, Operator.demand_told _ hx, ok_bind] at hw
  obtain ⟨repeats, -, hw⟩ := bind_eq_ok.mp hw
  obtain ⟨_, -, hw⟩ := bind_eq_ok.mp hw
  obtain ⟨s, -, hw⟩ := bind_eq_ok.mp hw
  cases s with
  | unknown =>
    cases hw
    have hdims : List.replicate x.shape.length SymDim.unknown = out.shape.map .ofSize := by
      refine SymShape.ranked.inj (Eq.trans ?_ hshape)
      simp [SymTensor.rank?, SymShape.ofShape, SymShape.ofRank]
    cases hlist : out.shape with
    | nil =>
      rw [hlist, List.map_nil, List.replicate_eq_nil_iff] at hdims
      rw [List.length_eq_zero_iff.mp hdims]
      exact .nil
    | cons n ns =>
      rw [hlist] at hdims
      cases hx' : x.shape.length <;> rw [hx'] at hdims <;> cases hdims
  | ranked rs =>
    obtain ⟨s, hs, hw⟩ := bind_eq_ok.mp hw
    cases hw
    rw [Operator.shape_told] at hs
    obtain ⟨_, -, hs⟩ := bind_eq_ok.mp hs
    obtain ⟨_, hlen, hs⟩ := bind_eq_ok.mp hs
    cases hs
    have hlen := not_not.mp (refuseIf_eq_ok.mp hlen)
    have hdims : List.zipWith (· * ·) (x.shape.map SymDim.ofSize) rs = out.shape.map .ofSize :=
      SymShape.ranked.inj hshape
    have hlength := congrArg List.length hdims
    rw [List.length_zipWith, hlen, List.length_map, List.length_map, Nat.min_self] at hlength
    refine List.forall₂_iff_get.mpr ⟨hlength, fun i hi hi' hzero => ?_⟩
    have hentry := congrArg (fun ds : List SymDim => ds[i]?) hdims
    rw [List.length_map] at hlen
    simp only [List.getElem?_zipWith, List.getElem?_map, List.getElem?_eq_getElem hi,
      List.getElem?_eq_getElem hi', List.getElem?_eq_getElem (hlen ▸ hi), Option.map_some,
      Option.some.injEq] at hentry
    rw [List.get_eq_getElem] at hzero
    rw [hzero] at hentry
    exact mul_eq_zero (hfits.lt_sizeLimit (List.getElem_mem _)) hentry

theorem safe (h : Operator.tile.Accepts inputs outputs) : Safe (Tile.prepare inputs outputs) := by
  refine safe_demand fun x hx => safe_single fun out hout => safe_ok ?_
  subst hout
  have hshapes := shape_out h hx
  refine noFault_sameType fun x' out' _ hx' hout' => ?_
  have hlimit := (hout' ▸ h.fits_single).extent_lt_sizeLimit
  refine Tensor.noFault_mapIndexedM hlimit fun index old hindex => ?_
  rw [hout'] at hindex
  have hrank := hindex.length_eq.trans hshapes.length_eq.symm
  refine noFault_bind (noFault_bind (noFault_demand_iff.mpr ?_) fun _ _ => ?_) fun _ _ =>
    noFault_ok _
  · rw [Tensor.rank, hx', hrank]
  refine noFault_bind (noFault_mapM fun p hp => ?_) fun _ _ => noFault_ok _
  refine noFault_bind (noFault_demand_iff.mpr ?_) fun _ _ => noFault_ok _
  rw [hx'] at hp
  have hsizes : List.Forall₂ (fun i n => n ≠ 0) index x.shape :=
    Related.trans hindex hshapes.flip fun i m n hi hn hzero => by
      rw [hn hzero] at hi
      exact Nat.not_lt_zero _ hi
  exact List.forall₂_zip hsizes hp

end Tile

end TensorGraph
