import TensorGraph.Proofs.Faults.Parameters
import TensorGraph.Proofs.Safety.Calls

/-! Operators that make, measure, reorder or copy a tensor. A sequence of integers stays inside 64
bits since each of its elements lies before the limit. -/

namespace TensorGraph

open Outcome Kernel

variable {inputs : ValueInputs} {outputs : List Value} {out : Value} {ε α : Type}

theorem ConstantOfShape.safe (op : ConstantOfShape) : Safe (op.prepare outputs) := by
  refine safe_single fun out _ => safe_ok ?_
  split <;> exact noFault_ok _

theorem Reshaping.safe : Safe (Reshaping.prepare inputs outputs) :=
  safe_demand fun _ _ => safe_single fun _ _ => safe_ok (noFault_copy _ _)

theorem ShapeOf.safe (op : ShapeOf) : Safe (op.prepare inputs outputs) :=
  safe_demand fun _ _ => safe_single fun _ _ => safe_ok (noFault_intOutput fun _ _ => noFault_ok _)

theorem SizeOf.safe : Safe (SizeOf.prepare inputs outputs) :=
  safe_demand fun _ _ => safe_single fun _ _ => safe_ok (noFault_intOutput fun _ _ => noFault_ok _)

theorem Sampling.safe (op : Sampling) (draws : Draws) :
    Safe (op.prepare draws inputs outputs) := by
  refine safe_single fun out _ => safe_ok ?_
  cases out with
  | int out => exact noFault_ok _
  | float out =>
    refine noFault_bind (noFault_typed? _) fun input _ => ?_
    refine noFault_bind ?_ fun _ _ => noFault_filled _
    unfold elements
    cases op with
    | bernoulli seed => exact noFault_bind (noFault_orRefuse _ _) fun _ _ => noFault_ok _
    | _ => exact noFault_ok _

theorem EyeLike.safe (op : EyeLike) (h : (Operator.eyeLike op).Accepts inputs outputs) :
    Safe (op.prepare outputs) := by
  refine safe_single fun out hout => safe_ok ?_
  subst hout
  obtain ⟨w, hw, -, hshape⟩ := h.infer_single rfl
  obtain ⟨t, ht, hw⟩ := bind_eq_ok.mp hw
  obtain ⟨s, hs, hw⟩ := bind_eq_ok.mp hw
  cases hw
  rw [SymInputs.demand_eq_ok, Operator.find?_told] at ht
  obtain ⟨x, hx, rfl⟩ := Option.map_eq_some_iff.mp ht
  rw [Operator.shape_told] at hs
  obtain ⟨hrank, hs⟩ := SymShape.declareRank_ofShape hs
  have hsame := h.shape_eq (h.fits_input hx) hs hshape
  refine noFault_anyOutput fun out' _ hout' => noFault_bind ?_ fun _ _ => noFault_ok _
  exact Tensor.noFault_size (by rw [hout', hsame, hrank]; exact Nat.one_lt_two)

namespace Range

theorem noFault_stepsFrom_float (delta : Float32) (count : Nat) (a : Float32) :
    (stepsFrom delta count a : Outcome ε (List Float32)).NoFault := by
  induction count generalizing a with
  | zero => exact noFault_ok _
  | succ count ih =>
    exact noFault_bind (noFault_ok _) fun _ _ => noFault_bind (ih _) fun _ _ => noFault_ok _

/-- Steps from an integer stay inside 64 bits if the last one does. -/
theorem noFault_stepsFrom_int {delta : Int64} {count : Nat} {a : Int64}
    (h : ∀ j : Nat, j ≤ count → FitsInt (a.toInt + j * delta.toInt)) :
    (stepsFrom delta count a : Outcome ε (List Int64)).NoFault := by
  induction count generalizing a with
  | zero => exact noFault_ok _
  | succ count ih =>
    have hfirst := h 1 (by omega)
    rw [Int.natCast_one, Int.one_mul] at hfirst
    refine noFault_bind (noFault_checkInt hfirst) fun next hnext => ?_
    have hnext : next.toInt = a.toInt + delta.toInt := toInt_of_checkInt hnext
    refine noFault_bind (ih fun j hj => ?_) fun _ _ => noFault_ok _
    have hj' := h (j + 1) (by omega)
    rw [hnext]
    rwa [Int.natCast_add, Int.natCast_one, Int.add_mul, Int.one_mul, Int.add_comm (j * _),
      ← Int.add_assoc] at hj'

/-- A clamped integer is the integer itself or the bound that it lies behind. -/
theorem toInt_ofIntClamp_cases (n : Int) :
    FitsInt n ∧ (Int64.ofIntClamp n).toInt = n ∨
      9223372036854775807 < n ∧ (Int64.ofIntClamp n).toInt = 9223372036854775807 ∨
        n < -9223372036854775808 ∧ (Int64.ofIntClamp n).toInt = -9223372036854775808 := by
  by_cases hlow : Int64.minValue.toInt ≤ n
  · by_cases hhigh : n ≤ Int64.maxValue.toInt
    · exact .inl ⟨⟨hlow, hhigh⟩, Int64.toInt_ofIntClamp hlow hhigh⟩
    · rw [Int64.ofIntClamp, dif_pos hlow, dif_neg hhigh]
      exact .inr (.inl ⟨not_le.mp hhigh, rfl⟩)
  · rw [Int64.ofIntClamp, dif_neg hlow]
    exact .inr (.inr ⟨not_le.mp hlow, rfl⟩)

theorem mul_le_of_le_tdiv {a b k : Int} (hb : 0 < b) (hk : 0 < k) (h : k ≤ a.tdiv b) :
    k * b ≤ a := by
  have hnonneg : 0 ≤ a := by
    by_contra hneg
    have hquotient := Int.tdiv_nonneg (a := -a) (by omega) hb.le
    rw [Int.neg_tdiv] at hquotient
    omega
  rw [Int.tdiv_eq_ediv_of_nonneg hnonneg] at h
  exact (Int.mul_le_mul_of_nonneg_right h hb.le).trans (Int.ediv_mul_le a hb.ne')

/-- The elements of a sequence lie between its start and its limit. -/
theorem fitsInt_of_intLength {start limit delta : Int64} {n : Nat}
    (h : intLength start limit delta = .ok n) {j : Nat} (hj : j < n) :
    FitsInt (start.toInt + j * delta.toInt) := by
  obtain ⟨_, hzero, h⟩ := bind_eq_ok.mp h
  obtain ⟨rounding, hrounding, h⟩ := bind_eq_ok.mp h
  obtain ⟨q, hq, h⟩ := bind_eq_ok.mp h
  cases h
  have hne : delta.toInt ≠ 0 := fun h => refuseIf_eq_ok.mp hzero (Int64.toInt_inj.mp h)
  have hrounding := toInt_of_checkInt hrounding
  have hquotient := toInt_of_divInt hq
  have hstart := fitsInt_toInt start
  have hlimit := fitsInt_toInt limit
  have hdelta := fitsInt_toInt delta
  have hdistance := fitsInt_toInt (subClamped limit start)
  have hspan : (addClamped (subClamped limit start) rounding).toInt =
      (Int64.ofIntClamp ((subClamped limit start).toInt + rounding.toInt)).toInt := rfl
  generalize (addClamped (subClamped limit start) rounding).toInt = span at hspan hquotient
  have hclose : (subClamped limit start).toInt =
      (Int64.ofIntClamp (limit.toInt - start.toInt)).toInt := rfl
  generalize (subClamped limit start).toInt = distance at hspan hclose hdistance
  have hcount : (j : Int) + 1 ≤ q.toInt := by omega
  have hclamped := toInt_ofIntClamp_cases (distance + rounding.toInt)
  have hheld := toInt_ofIntClamp_cases (limit.toInt - start.toInt)
  unfold FitsInt at *
  rcases signInt_cases delta with ⟨hneg, hsign⟩ | ⟨hnone, -⟩ | ⟨hpos, hsign⟩
  · rw [← Int.neg_tdiv_neg] at hquotient
    have hsteps := mul_le_of_le_tdiv (by omega) (by omega) (hquotient ▸ hcount)
    have hbackward : 0 ≤ j * -delta.toInt := Int.mul_nonneg (by omega) (by omega)
    rw [Int.add_mul, Int.one_mul, Int.mul_neg] at hsteps
    rw [Int.mul_neg] at hbackward
    omega
  · exact absurd hnone hne
  · have hsteps := mul_le_of_le_tdiv hpos (by omega) (hquotient ▸ hcount)
    have hforward : 0 ≤ j * delta.toInt := Int.mul_nonneg (by omega) hpos.le
    rw [Int.add_mul, Int.one_mul] at hsteps
    omega

theorem single?_told {i : Nat} (hi : i ∈ [0, 1, 2]) {v : Value} {a : Int64}
    (ha : element? Int64 (some v) = .ok (some a)) {e : SymElement}
    (he : (Operator.range.told i v).single? = some e) : e = .int a := by
  obtain ⟨t, ht, ha⟩ := bind_eq_ok.mp ha
  obtain ⟨b, hb, ha⟩ := bind_eq_ok.mp ha
  cases ha
  obtain rfl := eq_wrap_of_typed ht
  have hdata : t.data = [a] := by
    have hitem := orRefuse_eq_ok.mp hb
    unfold Tensor.item? at hitem
    split at hitem <;> simp_all
  have htold : Operator.range.told i (.int t) = (Value.int t).toWhole := by
    rw [Operator.told, if_pos (by simpa [Operator.valueInputs] using hi)]
  change (Operator.range.told i (.int t)).single? = some e at he
  unfold SymTensor.single? at he
  rw [htold, Value.elements_toWhole] at he
  split_ifs at he
  simpa [Value.elements, hdata] using he.symm

/-- The output of integers holds the counted elements. -/
theorem fitsInt_of_accepts {out : Tensor Int64} (h : Operator.range.Accepts inputs [.int out])
    {start delta : Value} (hstart : Inputs.find? inputs 0 = some start)
    (hdelta : Inputs.find? inputs 2 = some delta) {a d : Int64}
    (ha : element? Int64 (some start) = .ok (some a))
    (hd : element? Int64 (some delta) = .ok (some d)) {j : Nat} (hj : j < out.count) :
    FitsInt (a.toInt + j * d.toInt) := by
  obtain ⟨w, hw, htype, hshape⟩ := h.infer_single rfl
  simp only [Operator.infer, infer_eq, Operator.demand_told _ hstart, Operator.demand_told _ hdelta,
    ok_bind] at hw
  obtain ⟨limit, -, hw⟩ := bind_eq_ok.mp hw
  obtain ⟨_, -, hw⟩ := bind_eq_ok.mp hw
  obtain ⟨_, -, hw⟩ := bind_eq_ok.mp hw
  obtain ⟨_, -, hw⟩ := bind_eq_ok.mp hw
  obtain ⟨_, -, hw⟩ := bind_eq_ok.mp hw
  unfold result at hw
  split at hw
  · next s l e hs hl he =>
    obtain ⟨n, hn, hw⟩ := bind_eq_ok.mp hw
    cases hw
    obtain rfl := SymElement.int.inj (single?_told (by simp) ha hs)
    obtain rfl := SymElement.int.inj (single?_told (by simp) hd he)
    have hlength : out.shape = [n] := by
      refine h.shape_of_sizes ?_ rfl hshape
      exact fun m hm => List.mem_singleton.mp hm ▸ (intLength_lt hn).trans (by decide)
    have hcount : out.count = n := by
      rw [Tensor.count_eq, hlength]
      exact Nat.mul_one n
    exact fitsInt_of_intLength hn (hcount ▸ hj)
  · next s l e hs hl he => cases single?_told (by simp) ha hs
  · obtain ⟨_, -, hw⟩ := bind_eq_ok.mp hw
    cases hw
    cases hdims : out.shape <;> simp [Value.shape, SymShape.ofShape, SymDim.ofSize, hdims] at hshape

theorem safe (h : Operator.range.Accepts inputs outputs) :
    Safe (Range.prepare inputs outputs) := by
  refine safe_demand fun start hstart => safe_demand fun delta hdelta => ?_
  refine safe_single fun out hout => safe_ok ?_
  subst hout
  cases out with
  | float out =>
    refine noFault_bind ?_ fun t _ => noFault_filled t
    refine noFault_bind (noFault_element? _) fun _ _ => ?_
    refine noFault_bind (noFault_orRefuse _ _) fun _ _ => ?_
    refine noFault_bind (noFault_element? _) fun _ _ => ?_
    refine noFault_bind (noFault_orRefuse _ _) fun _ _ => ?_
    exact noFault_bind (noFault_stepsFrom_float _ _ _) fun _ _ => noFault_ok _
  | int out =>
    refine noFault_bind ?_ fun t _ => noFault_filled t
    refine noFault_bind (noFault_element? _) fun a? ha => ?_
    refine noFault_bind (noFault_orRefuse _ _) fun a ha' => ?_
    refine noFault_bind (noFault_element? _) fun d? hd => ?_
    refine noFault_bind (noFault_orRefuse _ _) fun d hd' => ?_
    obtain rfl := orRefuse_eq_ok.mp ha'
    obtain rfl := orRefuse_eq_ok.mp hd'
    refine noFault_bind (noFault_stepsFrom_int fun j hj => ?_) fun _ _ => noFault_ok _
    by_cases hzero : j = 0
    · simpa [hzero] using fitsInt_toInt a
    · exact fitsInt_of_accepts h hstart hdelta ha hd (by omega)

end Range

theorem Layout.isPermutation_reverse (rank : Nat) :
    isPermutation rank (List.range rank).reverse = true := by
  simp only [isPermutation, List.length_reverse, List.length_range, beq_self_eq_true, Bool.true_and,
    List.all_eq_true, List.mem_range, beq_iff_eq]
  intro d hd
  rw [List.count_reverse]
  exact List.count_eq_one_of_mem List.nodup_range (List.mem_range.mpr hd)

theorem Transpose.isPermutation_of_order {op : Transpose} {rank : Nat} {perm : List Nat}
    (h : op.order rank = .ok perm) : Layout.isPermutation rank perm = true := by
  unfold order at h
  split at h
  · split_ifs at h with hperm
    cases h
    exact hperm
  · cases h
    exact Layout.isPermutation_reverse rank

theorem Transpose.safe (op : Transpose) (h : (Operator.transpose op).Accepts inputs outputs) :
    Safe (op.prepare inputs outputs) := by
  refine safe_demand fun x hx => safe_bind (noFault_mapError _ ?_) fun perm hperm => ?_
  · unfold order
    split
    · split_ifs <;> simp
    · exact noFault_ok _
  refine safe_single fun out _ => safe_ok (noFault_sameType fun x' out' _ hx' _ => ?_)
  have hfits := h.fits_input hx
  refine noFault_bind (Tensor.noFault_permuted ?_ ?_) fun _ _ => ?_
  · rw [Tensor.rank, hx']
    exact isPermutation_of_order (mapError_eq_ok.mp hperm)
  · rw [hx']
    exact hfits.extent_lt_sizeLimit
  · exact noFault_bind (noFault_refuseIf _ _) fun _ _ => noFault_ok _

theorem Trilu.safe (op : Trilu) (h : (Operator.trilu op).Accepts inputs outputs) :
    Safe (op.prepare inputs outputs) := by
  refine safe_demand fun x hx => safe_bind (ValueInputs.noFault_findInt? _ _) fun k _ => ?_
  refine safe_single fun out hout => safe_ok (noFault_sameType fun x' out' _ hx' hout' => ?_)
  subst hout
  obtain ⟨w, hw, -, hshape⟩ := h.infer_single rfl
  simp only [Operator.infer, infer, Operator.demand_told _ hx, ok_bind] at hw
  obtain ⟨_, hrank, hw⟩ := bind_eq_ok.mp hw
  obtain ⟨_, -, hw⟩ := bind_eq_ok.mp hw
  cases hw
  rw [Operator.shape_told] at hrank
  have hrank := SymShape.demandRank_ofShape hrank
  have hfits := h.fits_input hx
  have hsame := h.shape_eq hfits (by simp [SymTensor.sameShape]) hshape
  rw [← hx'] at hrank hfits
  refine noFault_bind (noFault_checkSub hrank) fun i hi => ?_
  obtain ⟨-, rfl⟩ := checkSub_eq_ok hi
  refine noFault_bind (Tensor.noFault_size (by unfold Tensor.rank; omega)) fun rows hrows => ?_
  refine noFault_bind (noFault_checkSub (by unfold Tensor.rank; omega)) fun j hj => ?_
  obtain ⟨-, rfl⟩ := checkSub_eq_ok hj
  refine noFault_bind (Tensor.noFault_size (by unfold Tensor.rank; omega)) fun columns hcolumns =>
    ?_
  have hnext : x'.rank - 1 = x'.rank - 2 + 1 := by unfold Tensor.rank; omega
  have harea := Shape.mul_le_extent (Tensor.size_eq_ok hrows) (hnext ▸ Tensor.size_eq_ok hcolumns)
  have hlt := hfits.extent_lt_sizeLimit
  refine noFault_bind (noFault_checkSize (by omega)) fun area _ => ?_
  split_ifs
  · exact noFault_ok _
  · refine noFault_bind (noFault_demand_iff.mpr (.inl ?_)) fun _ _ => noFault_ok _
    rw [Tensor.count_eq, Tensor.count_eq, hx', hout', hsame]

end TensorGraph
