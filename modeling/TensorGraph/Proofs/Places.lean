import TensorGraph.Proofs.Covering.Integers
import TensorGraph.Proofs.Safety.Windows

/-! Where the windows of pooling start if places are rounded up. The last place is corrected by one
step, which is enough just if the next window already reaches the end of the padded input. -/

namespace TensorGraph

open Outcome

variable {ε : Type}

namespace Window

/-- The step before a quotient that is rounded up. -/
theorem sub_one_mul_lt_iff {room limit stride : Int} (hstride : 0 < stride) :
    (-(-room / stride) - 1) * stride < limit ↔ room ≤ (limit + stride - 1) / stride * stride := by
  calc (-(-room / stride) - 1) * stride < limit
      ↔ -(-room / stride) * stride ≤ limit + stride - 1 := by
        rw [Int.sub_mul, Int.one_mul]
        omega
    _ ↔ -((limit + stride - 1) / stride) ≤ -room / stride := by
        rw [← Int.le_ediv_iff_mul_le hstride]
        omega
    _ ↔ room ≤ (limit + stride - 1) / stride * stride := by
        rw [Int.le_ediv_iff_mul_le hstride, Int.neg_mul]
        omega

theorem toInt_of_trimSteps {k input stride m : Int64} {start : Nat} (hstart : start < intLimit)
    (h : (trimSteps (.size k) (.size input) stride start : Outcome ε SymDim) = .ok (.size m)) :
    m.toInt = if 0 < k.toInt ∧ input.toInt + start ≤ k.toInt * stride.toInt then k.toInt - 1
      else k.toInt := by
  have hpos : k > 0 ↔ 0 < k.toInt := by rw [gt_iff_lt, Int64.lt_iff_toInt_lt, Int64.toInt_zero]
  unfold trimSteps at h
  dsimp only at h
  by_cases hk : k > 0
  · rw [if_pos hk] at h
    obtain ⟨last, hlast, h⟩ := bind_eq_ok.mp h
    obtain ⟨limit, hlimit, h⟩ := bind_eq_ok.mp h
    have hreached : last ≥ limit ↔ input.toInt + start ≤ k.toInt * stride.toInt := by
      rw [ge_iff_le, Int64.le_iff_toInt_le, toInt_of_checkInt hlast, toInt_of_checkInt hlimit,
        toInt_intOfSize hstart]
    by_cases hback : last ≥ limit
    · rw [if_pos hback] at h
      obtain ⟨a, ha, h⟩ := bind_eq_ok.mp h
      cases h
      rw [if_pos ⟨hpos.mp hk, hreached.mp hback⟩, toInt_of_checkInt ha]
    · rw [if_neg hback] at h
      cases h
      rw [if_neg (not_and_of_not_right _ (mt hreached.mpr hback))]
  · rw [if_neg hk] at h
    cases h
    rw [if_neg (not_and_of_not_left _ (mt hpos.mpr hk))]

theorem describes_ofSize {names : String → Int} {n : Nat} (h : n < intLimit) :
    (SymDim.ofSize n).Describes names n :=
  (toInt_intOfSize h).symm

/-- The number of steps is the room over the stride, rounded up and corrected by one. -/
theorem exists_steps {input m : Int64} {size stride start stop : Nat}
    (hstride : 0 < stride ∧ stride < intLimit) (hsize : size < intLimit)
    (hpads : start + stop < intLimit)
    (h : (stepCount (.size input) (.ofSize size) stride 1 start stop true : Outcome ε SymDim) =
      .ok (.size m)) : ∃ k : Int,
        k = -(-(input.toInt + (start + stop : Nat) - size) / stride) ∧
          m.toInt = if 0 < k ∧ input.toInt + start ≤ k * stride then k - 1 else k := by
  obtain ⟨pads, hchecked, h⟩ := bind_eq_ok.mp h
  obtain ⟨-, rfl⟩ := checkSize_eq_ok.mp hchecked
  obtain ⟨steps, hsteps, h⟩ := bind_eq_ok.mp h
  obtain ⟨k, rfl, -⟩ := le_of_trimSteps h
  let names : String → Int := fun _ => 0
  have hone : (SymDim.size 1).Describes names 1 := rfl
  have hspan : (span (.ofSize size) 1).Describes names ((size - 1) * 1 + 1) :=
    (((describes_ofSize hsize).sub hone).mul hone).add hone
  have hinput : (SymDim.size input).Describes names input.toInt := rfl
  have hroom := (hinput.add (describes_ofSize hpads)).sub hspan
  have hk := SymDim.describes_size.mp (hroom.ceilDiv (describes_ofSize hstride.2) hsteps)
  rw [Int.fdiv_eq_ediv_of_nonneg _ (Int.natCast_nonneg stride), Int.mul_one, Int.sub_add_cancel]
    at hk
  refine ⟨k.toInt, hk.symm, ?_⟩
  have htrimmed := toInt_of_trimSteps (by omega) h
  rwa [toInt_intOfSize hstride.2] at htrimmed

/-- The last window starts in the input or the padding before it just if there is any of that, and
if the first window that would not start there reaches the end. -/
theorem last_start_lt_iff {input n : Int64} {size stride start stop : Nat}
    (hstride : 0 < stride ∧ stride < intLimit) (hsize : size < intLimit)
    (hpads : start + stop < intLimit)
    (h : outputSize (.size input) (.ofSize size) stride 1 (.fixed start stop) true =
      .ok (.size n)) :
    1 ≤ n.toInt ∧ ((n.toInt - 1) * stride < input.toInt + start ↔ 0 < input.toInt + start ∧
      input.toInt + start + stop ≤ (input.toInt + start + stride - 1) / stride * stride +
      size) := by
  obtain ⟨count, hcount, h⟩ := bind_eq_ok.mp h
  obtain ⟨_, hpositive, h⟩ := bind_eq_ok.mp h
  cases h
  obtain ⟨steps, hsteps, hcount⟩ := bind_eq_ok.mp hcount
  obtain ⟨m, rfl, hm⟩ := eq_size_of_add (Outcome.ok.inj hcount)
  have hone : (1 : Int64).toInt = 1 := rfl
  have hn : 1 ≤ n.toInt := by
    have hsmall := refuseIf_eq_ok.mp hpositive
    simp only [SymDim.value?, Option.any_some, decide_eq_true_eq, Int64.lt_iff_toInt_lt, hone]
      at hsmall
    omega
  have hlast : n.toInt - 1 = m.toInt := by omega
  obtain ⟨k, hk, htrimmed⟩ := exists_steps hstride hsize hpads hsteps
  have hstep : (0 : Int) < stride := by omega
  have hreach : (-(-(input.toInt + (start + stop : Nat) - size) / stride) - 1) * stride <
      input.toInt + start ↔ _ := sub_one_mul_lt_iff hstep
  rw [← hk] at hreach
  have hend : input.toInt + start + stop ≤ (input.toInt + start + stride - 1) / stride * stride +
      size ↔
      (k - 1) * stride < input.toInt + start := by
    rw [hreach]
    omega
  have hnonneg : 0 ≤ m.toInt * stride := Int.mul_nonneg (by omega) hstep.le
  refine ⟨hn, ?_⟩
  rw [hend, hlast]
  have hprevious : (k - 1) * stride = k * stride - stride := by rw [Int.sub_mul, Int.one_mul]
  split_ifs at htrimmed with hback
  · rw [htrimmed] at hnonneg ⊢
    omega
  · rw [htrimmed] at hnonneg ⊢
    rcases (show 0 ≤ k by omega).eq_or_lt with hzero | hmoved
    · rw [← hzero, Int.zero_mul] at hprevious ⊢
      omega
    · omega

theorem getD_of_perDimension {values entries : List Nat} {rank : Nat} {conflict : ValueConflict}
    (h : perDimension values rank conflict = .ok entries) (k : Nat) :
    entries.getD k 1 = values.getD k 1 := by
  unfold perDimension at h
  split_ifs at h with hempty
  · cases h
    rw [getD_replicate_one, List.isEmpty_iff.mp hempty, List.getD_nil]
  · cases h
    rfl

end Window

namespace Pool

open Window

variable {op : Pool} {inputs : SymInputs} {x y : SymTensor} {ds es : List SymDim} {k : Nat}

theorem size_of_infer (hx : inputs.demand 0 = .ok x) (hds : x.shape = .ranked ds)
    (hy : op.infer inputs = .ok [y]) (hes : y.shape = .ranked es) (hk : k < op.kernel.length) :
    0 < op.strides.getD k 1 ∧ (op.padding.dim k op.kernel.length >>= fun d =>
      outputSize (ds.getD (2 + k) .unknown) (.ofSize (op.kernel.getD k 1)) (op.strides.getD k 1) 1 d
        op.ceilMode) = .ok (es.getD (2 + k) .unknown) := by
  obtain ⟨x', hx', hy⟩ := bind_eq_ok.mp hy
  cases hx.symm.trans hx'
  obtain ⟨o, hdims, hy⟩ := bind_eq_ok.mp hy
  obtain ⟨_, -, hdims⟩ := bind_eq_ok.mp hdims
  obtain ⟨_, -, hdims⟩ := bind_eq_ok.mp hdims
  cases hdims
  rw [hds] at hy
  obtain ⟨_, hkernel, hy⟩ := bind_eq_ok.mp hy
  obtain ⟨strides, hstrides, hy⟩ := bind_eq_ok.mp hy
  obtain ⟨sizes, hsizes, hy⟩ := bind_eq_ok.mp hy
  cases hy
  cases hes
  have hrank := not_not.mp (not_or.mp (refuseIf_eq_ok.mp hkernel)).1
  have hfront : (ds.take 2).length = 2 := by
    rw [List.length_take]
    omega
  obtain ⟨d, hd, hsize⟩ :=
    Related.get_left (mapM_eq_ok.mp hsizes) (List.getElem?_range (hrank ▸ hk))
  have hget : (ds.take 2 ++ sizes).getD (2 + k) .unknown = d := by
    rw [List.getD_eq_getElem?_getD, List.getElem?_append_right (by omega), hfront,
      Nat.add_sub_cancel_left, hd, Option.getD_some]
  rw [hget, hrank, ← getD_of_perDimension hstrides]
  exact ⟨((perDimension_eq_ok hstrides).2 k).1, hsize⟩

/-- Windows whose places are rounded up all start in the input or the padding before it just if the
last one does: if there is any of that, and if the first window that would not start there reaches
the end. It does where the padding behind the input is not longer than the window. -/
theorem starts_inside_iff (hceil : op.ceilMode = true) (hx : inputs.demand 0 = .ok x)
    (hds : x.shape = .ranked ds) (hy : op.infer inputs = .ok [y]) (hes : y.shape = .ranked es)
    {size stride start stop : Nat} (hsize : op.kernel[k]? = some size)
    (hstride : op.strides.getD k 1 = stride)
    (hpads : op.padding.dim k op.kernel.length = .ok (.fixed start stop)) {input n : Int64}
    (hinput : ds[2 + k]? = some (.size input)) (hn : es[2 + k]? = some (.size n))
    (hlimits : size < intLimit ∧ stride < intLimit ∧ start + stop < intLimit) :
    ((∀ i : Nat, i < n.toInt → i * stride < input.toInt + start) ↔
      (n.toInt - 1) * stride < input.toInt + start) ∧
    ((n.toInt - 1) * stride < input.toInt + start ↔ 0 < input.toInt + start ∧
      input.toInt + start + stop ≤ (input.toInt + start + stride - 1) / stride * stride + size) ∧
    (0 < input.toInt + start → stop ≤ size → (n.toInt - 1) * stride < input.toInt + start) := by
  subst hstride
  obtain ⟨hk, rfl⟩ := List.getElem?_eq_some_iff.mp hsize
  obtain ⟨hpos, hcount⟩ := size_of_infer hx hds hy hes hk
  rw [hpads, ok_bind, hceil, List.getD_eq_getElem?_getD, hinput, List.getD_eq_getElem?_getD, hsize,
    List.getD_eq_getElem?_getD (l := es), hn] at hcount
  obtain ⟨hplaces, hlast⟩ := last_start_lt_iff ⟨hpos, hlimits.2.1⟩ hlimits.1 hlimits.2.2 hcount
  refine ⟨⟨fun h => ?_, fun h i hi => ?_⟩, hlast, fun hinside hstop => hlast.mpr ⟨hinside, ?_⟩⟩
  · have hall := h (n.toInt - 1).toNat (by omega)
    rwa [Int.toNat_of_nonneg (by omega)] at hall
  · have hmoved : (i : Int) * (op.strides.getD k 1) ≤ (n.toInt - 1) * (op.strides.getD k 1) :=
      Int.mul_le_mul_of_nonneg_right (by omega) (by omega)
    omega
  · have hround := Int.lt_ediv_add_one_mul_self (input.toInt + start + op.strides.getD k 1 - 1)
      (show (0 : Int) < op.strides.getD k 1 by omega)
    rw [Int.add_mul, Int.one_mul] at hround
    omega

/-- Three elements with a pad at both ends, of which the third window would start behind the last
element. -/
theorem starts_inside_two_places :
    infer ⟨.max, [2], [2], .fixed [1, 1], true, false⟩
      [some (.ofShape .float (.ofShape [1, 1, 3]))] =
      .ok [.ofShape .float (.ofShape [1, 1, 2])] ∧
        ∀ i : Nat, i < (intOfSize 2).toInt → i * (2 : Nat) < (intOfSize 3).toInt + (1 : Nat) := by
  have hinfer : infer ⟨.max, [2], [2], .fixed [1, 1], true, false⟩
      [some (.ofShape .float (.ofShape [1, 1, 3]))] =
        .ok [.ofShape .float (.ofShape [1, 1, 2])] := by
    decide
  have hstarts := starts_inside_iff rfl rfl rfl hinfer rfl (k := 0) rfl rfl rfl rfl rfl (by decide)
  exact ⟨hinfer, hstarts.1.mpr (hstarts.2.1.mpr (by decide))⟩

/-- With two pads behind a single element, the second of its windows starts in the padding. -/
theorem starts_outside_two_pads :
    infer ⟨.max, [1], [], .fixed [0, 2], true, false⟩
      [some (.ofShape .float (.ofShape [1, 1, 1]))] =
      .ok [.ofShape .float (.ofShape [1, 1, 2])] ∧
        ¬((intOfSize 2).toInt - 1) * (1 : Nat) < (intOfSize 1).toInt + (0 : Nat) := by
  decide

end Pool

end TensorGraph
