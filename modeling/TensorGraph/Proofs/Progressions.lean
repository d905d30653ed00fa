import Mathlib.Data.List.Sort
import Mathlib.Order.Interval.Set.Nat
import TensorGraph.Proofs.Safety.Making

/-! Integers that lie apart by a step. A slice resolves to the positions that its bounds and its
step select, and a sequence to the integers before its limit, as long as the distance that its
steps lead over is rounded up inside 64 bits. -/

namespace TensorGraph

open Outcome

variable {ε : Type}

theorem toInt_ne_zero {n : Int64} (h : n ≠ 0) : n.toInt ≠ 0 :=
  fun hzero => h (Int64.toInt_inj.mp hzero)

namespace Progression

/-- Whether steps of `delta` come by `a` before they come by `b`. -/
def Before (delta a b : Int) : Prop := 0 < delta ∧ a < b ∨ delta < 0 ∧ b < a

instance (delta a b : Int) : Decidable (Before delta a b) := inferInstanceAs (Decidable (_ ∨ _))

/-- How far `b` lies before the end of the steps of `delta` from `a`, which is zero if it lies
behind. -/
def distance (delta a b : Int) : Nat := ((b - a) * delta.sign).toNat

def count (delta a b : Int) : Nat := (distance delta a b + delta.natAbs - 1) / delta.natAbs

variable {delta a b : Int} {i : Nat}

theorem sign_cases (h : delta ≠ 0) :
    0 < delta ∧ delta.sign = 1 ∧ (delta.natAbs : Int) = delta ∨
      delta < 0 ∧ delta.sign = -1 ∧ (delta.natAbs : Int) = -delta := by
  rcases Int.lt_or_gt_of_ne h with hneg | hpos
  · exact .inr ⟨hneg, Int.sign_eq_neg_one_of_neg hneg, by omega⟩
  · exact .inl ⟨hpos, Int.sign_eq_one_of_pos hpos, by omega⟩

theorem natCast_mul_natAbs (i : Nat) (delta : Int) :
    ((i * delta.natAbs : Nat) : Int) = i * delta * delta.sign := by
  rw [Int.natCast_mul, Int.mul_assoc, Int.mul_sign_self]

theorem mul_bounds (i : Nat) (delta : Int) :
    (0 < delta → 0 ≤ i * delta) ∧ (delta < 0 → i * delta ≤ 0) :=
  ⟨fun hpos => Int.mul_nonneg (Int.natCast_nonneg i) hpos.le,
    fun hneg => Int.mul_nonpos_of_nonneg_of_nonpos (Int.natCast_nonneg i) hneg.le⟩

theorem before_iff_mul_lt (h : delta ≠ 0) (a b : Int) (i : Nat) :
    Before delta (a + i * delta) b ↔ i * delta.natAbs < distance delta a b := by
  have hfar := natCast_mul_natAbs i delta
  rcases sign_cases h with ⟨hpos, hsign, -⟩ | ⟨hneg, hsign, -⟩ <;> rw [hsign] at hfar <;>
    simp only [Before, distance, hsign] <;> omega

theorem lt_count_iff_mul_lt (h : delta ≠ 0) : i < count delta a b ↔
    i * delta.natAbs < distance delta a b := by
  have hpos : 0 < delta.natAbs := Int.natAbs_pos.mpr h
  rw [count, Nat.lt_iff_add_one_le, Nat.le_div_iff_mul_le hpos, Nat.add_mul, Nat.one_mul]
  omega

theorem before_iff_lt_count (h : delta ≠ 0) (a b : Int) (i : Nat) :
    Before delta (a + i * delta) b ↔ i < count delta a b := by
  rw [before_iff_mul_lt h, lt_count_iff_mul_lt h]

theorem count_eq_zero_iff (h : delta ≠ 0) : count delta a b = 0 ↔ distance delta a b = 0 := by
  have hfirst := lt_count_iff_mul_lt (a := a) (b := b) (i := 0) h
  omega

end Progression

open Progression

namespace SliceRange

def counted (size : Nat) (b : Int) : Int := if b < 0 then b + size else b

/-- A bound as a slice reads it, held inside the dimension, or just before it where the steps lead
backward. -/
def bound (size : Nat) (step b : Int) : Int :=
  if 0 < step then max 0 (min (counted size b) size) else max (-1) (min (counted size b) (size - 1))

/-- The positions that `start`, `stop` and `step` select from a sequence, in the order of the
steps: those at whole steps from the first bound on and before the last. -/
def selected (size : Nat) (start stop step : Int) : List Nat :=
  let first := bound size step start
  let last := bound size step stop
  (if 0 < step then List.range size else (List.range size).reverse).filter fun k =>
    ¬Before step k first ∧ Before step k last ∧ step ∣ k - first

section Selected

variable {size : Nat} {start stop step : Int}

theorem bound_mem (size : Nat) (step b : Int) :
    (0 < step → 0 ≤ bound size step b ∧ bound size step b ≤ size) ∧
      (¬0 < step → -1 ≤ bound size step b ∧ bound size step b ≤ size - 1) := by
  unfold bound
  split_ifs <;> omega

theorem lt_of_mem_selected {k : Nat} (h : k ∈ selected size start stop step) : k < size := by
  have hk := List.mem_of_mem_filter h
  split_ifs at hk <;> simpa using hk

theorem pairwise_selected (hstep : step ≠ 0) :
    (selected size start stop step).Pairwise fun k l : Nat => Before step k l := by
  apply List.Pairwise.filter
  split_ifs with hpos
  · exact List.pairwise_lt_range.imp fun hlt => .inl ⟨hpos, by omega⟩
  · rw [List.pairwise_reverse]
    exact List.pairwise_lt_range.imp fun hlt => .inr ⟨by omega, by omega⟩

theorem pairwise_positions (hstep : step ≠ 0) {first : Int} {n : Nat}
    (hinside : ∀ i < n, 0 ≤ first + i * step) :
    ((List.range n).map fun i : Nat => (first + i * step).toNat).Pairwise
      fun k l : Nat => Before step k l := by
  rw [List.pairwise_map]
  refine List.pairwise_lt_range.imp_of_mem fun {i j} hi hj hlt => ?_
  have hi := hinside i (List.mem_range.mp hi)
  have hj := hinside j (List.mem_range.mp hj)
  rw [Int.toNat_of_nonneg hi, Int.toNat_of_nonneg hj]
  rcases sign_cases hstep with ⟨hpos, -⟩ | ⟨hneg, -⟩
  · have hmul := Int.mul_lt_mul_of_pos_right (Int.ofNat_lt.mpr hlt) hpos
    exact .inl ⟨hpos, by omega⟩
  · have hmul := Int.mul_lt_mul_of_neg_right (Int.ofNat_lt.mpr hlt) hneg
    exact .inr ⟨hneg, by omega⟩

theorem inside_of_lt_count (hstep : step ≠ 0) {i : Nat}
    (hi : i < count step (bound size step start) (bound size step stop)) :
    0 ≤ bound size step start + i * step ∧ bound size step start + i * step < size := by
  have hlast := (before_iff_lt_count hstep _ _ i).mpr hi
  have hstart := bound_mem size step start
  have hstop := bound_mem size step stop
  have hfar := mul_bounds i step
  rcases hlast with ⟨hpos, hlt⟩ | ⟨hneg, hlt⟩
  · have := hstart.1 hpos
    have := hstop.1 hpos
    have := hfar.1 hpos
    omega
  · have := hstart.2 (by omega)
    have := hstop.2 (by omega)
    have := hfar.2 hneg
    omega

theorem mem_selected_iff (hstep : step ≠ 0) {k : Nat} :
    k ∈ selected size start stop step ↔
      ∃ i < count step (bound size step start) (bound size step stop),
        bound size step start + i * step = k := by
  simp only [selected, List.mem_filter, decide_eq_true_eq]
  constructor
  · rintro ⟨-, hfirst, hlast, c, hc⟩
    have hnonneg : 0 ≤ c := by
      by_contra hneg
      apply hfirst
      rcases sign_cases hstep with ⟨hpos, -⟩ | ⟨hneg', -⟩
      · have := Int.mul_neg_of_pos_of_neg hpos (Int.not_le.mp hneg)
        exact .inl ⟨hpos, by omega⟩
      · have := Int.mul_pos_of_neg_of_neg hneg' (Int.not_le.mp hneg)
        exact .inr ⟨hneg', by omega⟩
    lift c to Nat using hnonneg
    rw [Int.mul_comm] at hc
    have hk : bound size step start + c * step = k := by omega
    exact ⟨c, (before_iff_lt_count hstep _ _ c).mp (hk ▸ hlast), hk⟩
  · rintro ⟨i, hi, hk⟩
    have hinside := inside_of_lt_count hstep hi
    have hlast := (before_iff_lt_count hstep _ _ i).mpr hi
    rw [hk] at hlast hinside
    have hwhole : (k : Int) - bound size step start = step * i := by
      rw [Int.mul_comm]
      omega
    refine ⟨?_, ?_, hlast, Dvd.intro _ hwhole.symm⟩
    · split_ifs <;> simp <;> omega
    · have hfar := mul_bounds i step
      rintro (⟨hpos, hlt⟩ | ⟨hneg, hlt⟩)
      · have := hfar.1 hpos
        omega
      · have := hfar.2 hneg
        omega

theorem selected_eq_map (hstep : step ≠ 0) : selected size start stop step =
    (List.range (count step (bound size step start) (bound size step stop))).map fun i : Nat =>
      (bound size step start + i * step).toNat := by
  have hirrefl : Std.Irrefl fun k l : Nat => Before step k l :=
    ⟨fun k h => by unfold Before at h; omega⟩
  have hantisymm : Std.Antisymm fun k l : Nat => Before step k l :=
    ⟨fun k l h h' => by unfold Before at h h'; omega⟩
  have hinside : ∀ i < count step (bound size step start) (bound size step stop),
      0 ≤ bound size step start + i * step ∧ bound size step start + i * step < size :=
    fun i hi => inside_of_lt_count hstep hi
  have hordered := pairwise_positions hstep fun i hi => (hinside i hi).1
  -- both lists are in the order of the steps, so that they are the same if their members are
  refine (pairwise_selected hstep).eq_of_mem_iff hordered fun k => ?_
  rw [mem_selected_iff hstep, List.mem_map]
  constructor
  · rintro ⟨i, hi, hk⟩
    exact ⟨i, List.mem_range.mpr hi, by omega⟩
  · rintro ⟨i, hi, hk⟩
    have hi := List.mem_range.mp hi
    have := hinside i hi
    exact ⟨i, hi, by omega⟩

theorem selected_eq_nil_iff (hstep : step ≠ 0) : selected size start stop step = [] ↔
    Progression.distance step (bound size step start) (bound size step stop) = 0 := by
  rw [selected_eq_map hstep, List.map_eq_nil_iff, List.range_eq_nil, count_eq_zero_iff hstep]

end Selected

section Resolve

variable {dim start stop step : Int64}

theorem toInt_fromEnd (hdim : 0 ≤ dim.toInt) (b : Int64) :
    (fromEnd dim b).toInt = counted dim.toInt.toNat b.toInt := by
  have htop := fitsInt_toInt dim
  have hb := fitsInt_toInt b
  unfold FitsInt at htop hb
  unfold fromEnd counted
  simp only [Int64.lt_iff_toInt_lt, Int64.toInt_zero]
  split_ifs with hneg
  · have hmin : Int64.minValue.toInt = -9223372036854775808 := rfl
    have hmax : Int64.maxValue.toInt = 9223372036854775807 := rfl
    rw [addClamped, Int64.toInt_ofIntClamp (by omega) (by omega)]
    omega
  · rfl

theorem toInt_inside (hdim : 0 ≤ dim.toInt) (step b : Int64) :
    (inside dim step (fromEnd dim b)).toInt = bound dim.toInt.toNat step.toInt b.toInt := by
  have hlast := toInt_sub_one hdim
  have hread := toInt_fromEnd hdim b
  have hone : (-1 : Int64).toInt = -1 := rfl
  simp only [inside, bound, gt_iff_lt, Int64.lt_iff_toInt_lt, Int64.toInt_zero, hone, hlast, hread,
    apply_ite Int64.toInt]
  split_ifs <;> omega

section Count

variable {span n : Int64} {a b : Int}

theorem leads_iff_pos (hspan : span.toInt = b - a) (hstep : step ≠ 0) :
    Leads span step ↔ 0 < Progression.distance step.toInt a b := by
  have hne := toInt_ne_zero hstep
  simp only [Leads, gt_iff_lt, Int64.lt_iff_toInt_lt, Int64.toInt_zero, Progression.distance,
    ← hspan]
  rcases sign_cases hne with ⟨hpos, hsign, -⟩ | ⟨hneg, hsign, -⟩ <;> rw [hsign] <;> omega

theorem sizeOfInt_of_stepCount (hspan : span.toInt = b - a) (hstep : step ≠ 0)
    (h : (stepCount span step : Outcome ε Int64) = .ok n) :
    sizeOfInt n = Progression.count step.toInt a b := by
  have hne := toInt_ne_zero hstep
  by_cases hleads : Leads span step
  · have hfar : Progression.distance step.toInt a b = span.toInt.natAbs := by
      have hpos := (leads_iff_pos hspan hstep).mp hleads
      unfold Progression.distance at hpos ⊢
      rw [← hspan] at hpos ⊢
      rcases sign_cases hne with ⟨-, hsign, -⟩ | ⟨-, hsign, -⟩ <;> rw [hsign] at hpos ⊢ <;> omega
    have hcount : n.toInt = (Progression.count step.toInt a b : Nat) := by
      rw [toInt_of_stepCount hleads h, Progression.count, hfar, Int.natCast_ediv]
      congr 1
      omega
    rw [sizeOfInt_of_nonneg (Int64.le_iff_toInt_le.mpr (by rw [hcount, Int64.toInt_zero]; omega)),
      hcount, Int.toNat_natCast]
  · rw [stepCount_of_not_leads hleads] at h
    cases h
    rw [leads_iff_pos hspan hstep, Nat.pos_iff_ne_zero, not_not] at hleads
    exact ((count_eq_zero_iff hne).mpr hleads).symm

end Count

theorem toInt_span (hdim : 0 ≤ dim.toInt) (start stop step : Int64) :
    (SliceRange.distance dim start stop step).toInt =
      bound dim.toInt.toNat step.toInt stop.toInt -
      bound dim.toInt.toNat step.toInt start.toInt := by
  rw [(toInt_distance hdim start stop step).1, toInt_inside hdim, toInt_inside hdim]

theorem stepCount_ne_error (span step : Int64) (e : ε) : stepCount span step ≠ .error e := by
  unfold stepCount
  split_ifs
  · refine bind_ne_error (checkInt_ne_error _ _) fun a _ => ?_
    refine bind_ne_error (checkInt_ne_error _ _) fun c _ => ?_
    refine bind_ne_error (checkInt_ne_error _ _) fun s _ => ?_
    refine bind_ne_error (checkInt_ne_error _ _) fun t _ => ?_
    exact bind_ne_error (demand_ne_error _) fun _ _ => checkInt_ne_error _ _
  · simp

/-- A slice is resolved unless it selects something and its step cannot be added to the distance of
its bounds. -/
theorem resolve_eq_ok_iff (hdim : 0 ≤ dim.toInt) (hstep : step ≠ 0) :
    (∃ r, resolve dim start stop step = .ok r) ↔
      (0 < Progression.distance step.toInt (bound dim.toInt.toNat step.toInt start.toInt)
          (bound dim.toInt.toNat step.toInt stop.toInt) →
        (bound dim.toInt.toNat step.toInt stop.toInt -
          bound dim.toInt.toNat step.toInt start.toInt).natAbs + step.toInt.natAbs ≤
            9223372036854775807) := by
  have hspan := toInt_span hdim start stop step
  rw [← leads_iff_pos hspan hstep, ← hspan, ← noFault_resolve_iff hdim hstep]
  constructor
  · rintro ⟨r, hr⟩
    exact noFault_of_eq_ok hr
  · intro h
    cases hr : resolve dim start stop step with
    | ok r => exact ⟨r, rfl⟩
    | fault => exact absurd hr h
    | error e =>
      rw [resolve_of_nonneg hdim hstep] at hr
      exact absurd hr (bind_ne_error (stepCount_ne_error _ _ _) fun _ _ => by simp)

theorem parts_of_resolve {r : SliceRange} (hdim : 0 ≤ dim.toInt) (hstep : step ≠ 0)
    (h : resolve dim start stop step = .ok r) :
    r.start.toInt = bound dim.toInt.toNat step.toInt start.toInt ∧ r.step = step ∧
      r.len = Progression.count step.toInt (bound dim.toInt.toNat step.toInt start.toInt)
        (bound dim.toInt.toNat step.toInt stop.toInt) := by
  rw [resolve_of_nonneg hdim hstep] at h
  obtain ⟨n, hn, h⟩ := bind_eq_ok.mp h
  cases h
  exact ⟨toInt_inside hdim step start, rfl,
    sizeOfInt_of_stepCount (toInt_span hdim start stop step) hstep hn⟩

theorem position_eq_ok {r : SliceRange} {i : Nat} (hi : i < intLimit)
    (hfar : FitsInt (i * r.step.toInt)) (hnonneg : 0 ≤ r.start.toInt + i * r.step.toInt)
    (hinside : FitsInt (r.start.toInt + i * r.step.toInt)) :
    (r.position i : Outcome ε Nat) = .ok (r.start.toInt + i * r.step.toInt).toNat := by
  obtain ⟨far, hfar, heq⟩ := exists_checkInt (ε := ε) hfar
  obtain ⟨k, hk, hlast⟩ := exists_checkInt (ε := ε) hinside
  rw [position, toInt_intOfSize hi, hfar, ok_bind, heq, hk, ok_bind,
    sizeOfInt_of_nonneg (Int64.le_iff_toInt_le.mpr (by rwa [hlast, Int64.toInt_zero])), hlast]
  rfl

theorem positions_of_resolve {r : SliceRange} (hdim : 0 ≤ dim.toInt) (hstep : step ≠ 0)
    (h : resolve dim start stop step = .ok r) :
    ((List.range r.len).mapM r.position : Outcome ε (List Nat)) =
      .ok (selected dim.toInt.toNat start.toInt stop.toInt step.toInt) := by
  have hlimit := intLimit_eq
  have hne := toInt_ne_zero hstep
  obtain ⟨hstart, rfl, hlen⟩ := parts_of_resolve hdim hstep h
  rw [selected_eq_map hne, mapM_eq_ok, List.forall₂_map_right_iff, hlen, List.forall₂_same]
  intro i hi
  have hinside := inside_of_lt_count hne (List.mem_range.mp hi)
  have htop := fitsInt_toInt dim
  have hfirst := bound_mem dim.toInt.toNat r.step.toInt start.toInt
  have hmany : i ≤ (i * r.step.toInt).natAbs := by
    rw [Int.natAbs_mul, Int.natAbs_natCast]
    exact Nat.le_mul_of_pos_right i (Int.natAbs_pos.mpr hne)
  rw [← hstart] at hinside hfirst ⊢
  unfold FitsInt at htop
  exact position_eq_ok (by omega) (by unfold FitsInt; omega) hinside.1 (by unfold FitsInt; omega)

/-- A slice resolves to the positions that it selects, all of them inside the dimension, unless it
selects something and its step cannot be added to the distance of its bounds. -/
theorem resolve_selects_iff (hdim : 0 ≤ dim.toInt) (hstep : step ≠ 0) :
    (∀ k ∈ selected dim.toInt.toNat start.toInt stop.toInt step.toInt, (k : Int) < dim.toInt) ∧
      ((∃ r, resolve dim start stop step = .ok r ∧
          ((List.range r.len).mapM r.position : Outcome ε (List Nat)) =
            .ok (selected dim.toInt.toNat start.toInt stop.toInt step.toInt)) ↔
        selected dim.toInt.toNat start.toInt stop.toInt step.toInt = [] ∨
          (bound dim.toInt.toNat step.toInt stop.toInt -
            bound dim.toInt.toNat step.toInt start.toInt).natAbs + step.toInt.natAbs ≤
              9223372036854775807) := by
  have hne := toInt_ne_zero hstep
  constructor
  · intro k hk
    have := lt_of_mem_selected hk
    omega
  · rw [selected_eq_nil_iff hne, or_iff_not_imp_left, ← ne_eq, ← Nat.pos_iff_ne_zero,
      ← resolve_eq_ok_iff hdim hstep]
    constructor
    · rintro ⟨r, hr, -⟩
      exact ⟨r, hr⟩
    · rintro ⟨r, hr⟩
      exact ⟨r, hr, positions_of_resolve hdim hstep hr⟩

theorem resolve_selects_backward : ∃ r, resolve 5 (-1) (-6) (-2) = .ok r ∧
    ((List.range r.len).mapM r.position : Outcome Unit (List Nat)) = .ok [4, 2, 0] := by
  have hdim : 0 ≤ (5 : Int64).toInt := by decide
  have hstep : (-2 : Int64) ≠ 0 := by decide
  exact (resolve_selects_iff hdim hstep).2.mpr (.inr (by decide))

/-- The largest step is not resolved, though it selects the first position. -/
theorem resolve_fault_largest_step :
    resolve 5 0 5 Int64.maxValue = .fault ∧ selected 5 0 5 Int64.maxValue.toInt = [0] := by
  decide

end Resolve

end SliceRange

theorem Tensor.data_overwrite_of_le {α : Type} {t : Tensor α} {values : List α}
    (h : t.data.length ≤ values.length) :
    (t.overwrite values).data = values.take t.data.length := by
  simp [Tensor.overwrite, h]

namespace Range

def steps (start limit delta : Int) : Set Nat := {i | Before delta (start + i * delta) limit}

def reach (delta : Int) : Nat := if 0 < delta then 9223372036854775807 else intLimit

section Counted

variable {start limit delta : Int}

theorem steps_eq_Iio (h : delta ≠ 0) :
    steps start limit delta = Set.Iio (count delta start limit) :=
  Set.ext fun i => before_iff_lt_count h start limit i

theorem ncard_steps (h : delta ≠ 0) :
    (steps start limit delta).ncard = count delta start limit := by
  rw [steps_eq_Iio h, Set.ncard_Iio_nat]

theorem fitsInt_mul_iff (h : delta ≠ 0) (n : Nat) :
    FitsInt (n * delta) ↔ n * delta.natAbs ≤ reach delta := by
  have hlimit := intLimit_eq
  have hfar := natCast_mul_natAbs n delta
  have hbounds := mul_bounds n delta
  rcases sign_cases h with ⟨hpos, hsign, -⟩ | ⟨hneg, hsign, -⟩
  · have := hbounds.1 hpos
    rw [hsign] at hfar
    rw [reach, if_pos hpos, FitsInt]
    omega
  · have := hbounds.2 hneg
    rw [hsign] at hfar
    rw [reach, if_neg (by omega), FitsInt]
    omega

end Counted

/-- The distance to the limit with the room for rounding up, as far as 64 bits hold both. -/
def span (start limit delta : Int64) : Int :=
  (Int64.ofIntClamp ((subClamped limit start).toInt + (delta.toInt - delta.toInt.sign))).toInt

section Length

variable {start limit delta : Int64} {n : Nat}

/-- In the direction of the steps, the span is the least of the exact one and of what 64 bits hold,
or less than one step where nothing lies before the limit. -/
theorem span_cases (start limit : Int64) (hdelta : delta.toInt ≠ 0) :
    span start limit delta * delta.toInt.sign < delta.toInt.natAbs ∧
        distance delta.toInt start.toInt limit.toInt = 0 ∨
      span start limit delta * delta.toInt.sign =
        (min (distance delta.toInt start.toInt limit.toInt + delta.toInt.natAbs - 1)
          (reach delta.toInt) : Nat) := by
  have hlimit := intLimit_eq
  have htop := fitsInt_toInt delta
  have hlimit := fitsInt_toInt limit
  have hstart := fitsInt_toInt start
  have hspan :=
    toInt_ofIntClamp_cases ((subClamped limit start).toInt + (delta.toInt - delta.toInt.sign))
  have hclose := toInt_ofIntClamp_cases (limit.toInt - start.toInt)
  rw [show Int64.ofIntClamp (limit.toInt - start.toInt) = subClamped limit start from rfl] at hclose
  unfold FitsInt at htop hlimit hstart hspan hclose
  unfold span distance reach
  rcases sign_cases hdelta with ⟨hpos, hsign, habs⟩ | ⟨hneg, hsign, habs⟩
  · rw [hsign] at hspan ⊢
    rw [if_pos hpos]
    omega
  · rw [hsign] at hspan ⊢
    rw [if_neg (by omega)]
    omega

theorem checked_length_iff {q : Int} :
    (checkInt q >>= fun a => pure a.toInt.toNat : Outcome RuleError Nat) = .ok n ↔
      FitsInt q ∧ q.toNat = n := by
  by_cases hfits : FitsInt q
  · obtain ⟨a, ha, hread⟩ := exists_checkInt (ε := RuleError) hfits
    rw [ha, ok_bind, hread, pure_eq, Outcome.ok.injEq, and_iff_right hfits]
  · rw [checkInt, if_neg hfits]
    simp [hfits]

theorem intLength_eq_ok_iff_span (hdelta : delta.toInt ≠ 0) : intLength start limit delta = .ok n ↔
    FitsInt ((span start limit delta).tdiv delta.toInt) ∧
      ((span start limit delta).tdiv delta.toInt).toNat = n := by
  have hne : delta ≠ 0 := fun h => hdelta (h ▸ Int64.toInt_zero)
  have hsign : (signInt delta).toInt = delta.toInt.sign := by
    have hcases := signInt_cases delta
    rcases sign_cases hdelta with ⟨hpos, hsign, -⟩ | ⟨hneg, hsign, -⟩ <;> omega
  have hdivided : ∀ a : Int64, (divInt a delta : Outcome RuleError Int64) =
      checkInt (a.toInt.tdiv delta.toInt) := fun a => by
    rw [divInt, Outcome.demand, if_pos hne, ok_bind]
  have hfits : FitsInt (delta.toInt - delta.toInt.sign) := by
    have := fitsInt_toInt delta
    unfold FitsInt at *
    rcases sign_cases hdelta with ⟨hpos, hsign, -⟩ | ⟨hneg, hsign, -⟩ <;> omega
  obtain ⟨rounding, hround, hread⟩ := exists_checkInt (ε := RuleError) hfits
  have hspan : (addClamped (subClamped limit start) rounding).toInt = span start limit delta := by
    rw [addClamped, hread, span]
  simp only [intLength, refuseIf_neg hne, ok_bind, hsign, hround, hdivided, hspan]
  exact checked_length_iff

/-- The length of a sequence counts the steps before its limit as far as 64 bits hold their
distance. -/
theorem intLength_eq_ok_iff (hdelta : delta.toInt ≠ 0) : intLength start limit delta = .ok n ↔
    n = min (distance delta.toInt start.toInt limit.toInt + delta.toInt.natAbs - 1)
      (reach delta.toInt) / delta.toInt.natAbs ∧ FitsInt n := by
  have hpos : 0 < delta.toInt.natAbs := Int.natAbs_pos.mpr hdelta
  have hquotient : (span start limit delta).tdiv delta.toInt =
      (span start limit delta * delta.toInt.sign).tdiv delta.toInt.natAbs := by
    rcases sign_cases hdelta with ⟨hpos, hsign, habs⟩ | ⟨hneg, hsign, habs⟩
    · rw [hsign, habs, Int.mul_one]
    · rw [hsign, habs, Int.mul_neg, Int.mul_one, Int.neg_tdiv_neg]
  rw [intLength_eq_ok_iff_span hdelta]
  rcases span_cases start limit hdelta with ⟨hshort, hnone⟩ | hspan
  · have hback : (span start limit delta).tdiv delta.toInt ≤ 0 := by
      rw [hquotient]
      by_cases hnonneg : 0 ≤ span start limit delta * delta.toInt.sign
      · exact (Int.tdiv_eq_zero_of_lt hnonneg hshort).le
      · have hnonpos := Int.tdiv_nonneg (a := -(span start limit delta * delta.toInt.sign))
          (b := delta.toInt.natAbs) (by omega) (by omega)
        rw [Int.neg_tdiv] at hnonpos
        omega
    have hfew : (min (0 + delta.toInt.natAbs - 1) (reach delta.toInt)) / delta.toInt.natAbs = 0 :=
      Nat.div_eq_of_lt (by omega)
    have hfits : FitsInt ((span start limit delta).tdiv delta.toInt) := by
      have hle := Nat.div_le_self (span start limit delta).natAbs delta.toInt.natAbs
      have hread : ((span start limit delta).tdiv delta.toInt).natAbs =
          (span start limit delta).natAbs / delta.toInt.natAbs := Int.natAbs_tdiv _ _
      have htop : FitsInt (span start limit delta) := fitsInt_toInt _
      unfold FitsInt at htop ⊢
      omega
    rw [hnone, hfew, and_iff_right hfits, Int.toNat_of_nonpos hback]
    constructor
    · rintro rfl
      exact ⟨rfl, by decide⟩
    · rintro ⟨rfl, -⟩
      rfl
  · rw [hquotient, hspan, Int.tdiv_eq_ediv_of_nonneg (Int.natCast_nonneg _), ← Int.natCast_ediv,
      Int.toNat_natCast]
    constructor
    · rintro ⟨hfits, rfl⟩
      exact ⟨rfl, hfits⟩
    · rintro ⟨rfl, hfits⟩
      exact ⟨hfits, rfl⟩

theorem le_count_of_intLength (hdelta : delta.toInt ≠ 0) (h : intLength start limit delta = .ok n) :
    n ≤ count delta.toInt start.toInt limit.toInt := by
  rw [((intLength_eq_ok_iff hdelta).mp h).1]
  exact Nat.div_le_div_right (Nat.min_le_left _ _)

theorem intLength_eq_count_iff (hdelta : delta.toInt ≠ 0) :
    intLength start limit delta = .ok (count delta.toInt start.toInt limit.toInt) ↔
      FitsInt (count delta.toInt start.toInt limit.toInt) ∧
        FitsInt (count delta.toInt start.toInt limit.toInt * delta.toInt) := by
  have hpos : 0 < delta.toInt.natAbs := Int.natAbs_pos.mpr hdelta
  rw [intLength_eq_ok_iff hdelta, fitsInt_mul_iff hdelta, and_comm, and_congr_right_iff, count]
  intro _
  have hle := Nat.div_mul_le_self
    (distance delta.toInt start.toInt limit.toInt + delta.toInt.natAbs - 1) delta.toInt.natAbs
  constructor
  · intro hexact
    have hheld := (Nat.le_div_iff_mul_le hpos).mp hexact.le
    exact hheld.trans (Nat.min_le_right _ _)
  · intro hheld
    apply Nat.le_antisymm
    · rw [Nat.le_div_iff_mul_le hpos]
      exact Nat.le_min.mpr ⟨hle, hheld⟩
    · exact Nat.div_le_div_right (Nat.min_le_left _ _)

end Length

section Elements

variable {start limit delta : Int64} {n : Nat}

theorem map_stepsFrom (h : ∀ j : Nat, j ≤ n → FitsInt (start.toInt + j * delta.toInt)) :
    ∃ rest, (stepsFrom delta n start : Outcome ε (List Int64)) = .ok rest ∧
      (start :: rest).map Int64.toInt =
        (List.range (n + 1)).map fun i : Nat => start.toInt + i * delta.toInt := by
  induction n generalizing start with
  | zero => exact ⟨[], rfl, by simp⟩
  | succ n ih =>
    have hfirst := h 1 (by omega)
    rw [Int.natCast_one, Int.one_mul] at hfirst
    obtain ⟨next, hnext, hread⟩ := exists_checkInt (ε := ε) hfirst
    have hshift : ∀ j : Nat, next.toInt + j * delta.toInt = start.toInt + (j + 1 : Nat) *
        delta.toInt :=
      fun j => by rw [hread, Int.natCast_add, Int.natCast_one, Int.add_mul, Int.one_mul]; omega
    have hfits : ∀ j : Nat, j ≤ n → FitsInt (next.toInt + j * delta.toInt) := fun j hj =>
      hshift j ▸ h (j + 1) (by omega)
    obtain ⟨rest, hrest, hall⟩ := ih hfits
    refine ⟨next :: rest, ?_, ?_⟩
    · exact bind_eq_ok.mpr ⟨next, hnext, bind_eq_ok.mpr ⟨rest, hrest, rfl⟩⟩
    · rw [List.map_cons, hall, List.range_succ_eq_map (n := n + 1), List.map_cons, List.map_map]
      simp [hshift, Function.comp_def]

/-- A sequence with as many elements as its length counts is filled with the multiples of the
step. -/
theorem map_fill (h : intLength start limit delta = .ok n) {out : Tensor Int64}
    (hshape : out.shape = [n]) :
    ∃ t, (fill start delta out : Outcome ε (Tensor Int64)) = .ok t ∧
      t.data.map Int64.toInt = (List.range n).map fun i : Nat => start.toInt + i * delta.toInt := by
  have hcount : out.data.length = n := by
    rw [out.length_data, hshape]
    exact Nat.mul_one n
  have hfits : ∀ j : Nat, j ≤ n - 1 → FitsInt (start.toInt + j * delta.toInt) := fun j hj => by
    by_cases hzero : j = 0
    · simpa [hzero] using fitsInt_toInt start
    · exact fitsInt_of_intLength h (by omega)
  obtain ⟨rest, hrest, hall⟩ := map_stepsFrom (ε := ε) hfits
  have hlen := congrArg List.length hall
  refine ⟨_, bind_eq_ok.mpr ⟨rest, ?_, rfl⟩, ?_⟩
  · rw [Tensor.count_eq, ← out.length_data, hcount]
    exact hrest
  · simp only [List.length_map, List.length_range, List.length_cons] at hlen
    have hfull : out.data.length ≤ (start :: rest).length := by
      rw [hcount, List.length_cons]
      omega
    rw [Tensor.data_overwrite_of_le hfull, hcount, List.map_take, hall, ← List.map_take,
      List.take_range, Nat.min_eq_left (by omega)]

/-- The length of a sequence is the number of steps before its limit where 64 bits hold this number
and the distance that so many steps lead over. It is never more, and the elements are then those at
whole steps from the start. -/
theorem intLength_eq_ncard_iff (hdelta : delta ≠ 0) :
    (∀ i, i ∈ steps start.toInt limit.toInt delta.toInt ↔
        i < (steps start.toInt limit.toInt delta.toInt).ncard) ∧
      (intLength start limit delta = .ok (steps start.toInt limit.toInt delta.toInt).ncard ↔
        FitsInt (steps start.toInt limit.toInt delta.toInt).ncard ∧
          FitsInt ((steps start.toInt limit.toInt delta.toInt).ncard * delta.toInt)) ∧
      ∀ n, intLength start limit delta = .ok n →
        n ≤ (steps start.toInt limit.toInt delta.toInt).ncard ∧
          ∀ out : Tensor Int64, out.shape = [n] →
            ∃ t, (fill start delta out : Outcome ε (Tensor Int64)) = .ok t ∧
              t.data.map Int64.toInt =
                (List.range n).map fun i : Nat => start.toInt + i * delta.toInt := by
  have hne := toInt_ne_zero hdelta
  rw [ncard_steps hne]
  refine ⟨fun i => ?_, intLength_eq_count_iff hne, fun n hn => ⟨le_count_of_intLength hne hn, ?_⟩⟩
  · rw [steps_eq_Iio hne, Set.mem_Iio]
  · intro out hshape
    exact map_fill hn hshape

theorem intLength_eq_ncard_backward : intLength 5 0 (-2) = .ok (steps 5 0 (-2)).ncard := by
  have hdelta : (-2 : Int64) ≠ 0 := by decide
  have hfits : FitsInt (steps 5 0 (-2)).ncard ∧ FitsInt ((steps 5 0 (-2)).ncard * (-2)) := by
    rw [ncard_steps (by decide)]
    decide
  exact (intLength_eq_ncard_iff (ε := Unit) hdelta).2.1.mpr hfits

/-- Two steps come before the greatest integer, but room for rounding up is not left. -/
theorem intLength_short_largest_limit :
    intLength 0 Int64.maxValue 4611686018427387904 = .ok 1 ∧
      (steps 0 Int64.maxValue.toInt 4611686018427387904).ncard = 2 := by
  rw [ncard_steps (by decide)]
  decide

end Elements

end Range

end TensorGraph
