import Mathlib.Algebra.Order.Ring.Int
import TensorGraph.Proofs.Follows
import TensorGraph.Symbolic.Slice

/-! Where arithmetic of 64 bits faults. A quotient does by zero, and for the least integer by minus
one. The steps of a slice cannot be counted if its step and the distance that they lead over are too
long together. -/

namespace TensorGraph

open Outcome

variable {ε α β : Type}

theorem Outcome.noFault_bind_iff {x : Outcome ε α} {f : α → Outcome ε β} :
    (x >>= f).NoFault ↔ x.NoFault ∧ ∀ a, x = .ok a → (f a).NoFault := by
  cases x with
  | ok a => simp
  | error e => simp
  | fault => simp [NoFault]

theorem noFault_checkInt_iff {n : Int} : (checkInt n : Outcome ε Int64).NoFault ↔ FitsInt n :=
  ⟨fun h => by_contra fun hn => h (if_neg hn), noFault_checkInt⟩

theorem exists_checkInt {n : Int} (h : FitsInt n) :
    ∃ a : Int64, (checkInt n : Outcome ε Int64) = .ok a ∧ a.toInt = n := by
  have hok : (checkInt n : Outcome ε Int64) = .ok (Int64.ofInt n) := if_pos h
  exact ⟨_, hok, toInt_of_checkInt hok⟩

theorem noFault_checkSize {n : Nat} (h : n < sizeLimit) : (checkSize n : Outcome ε Nat).NoFault :=
  noFault_of_eq_ok (checkSize_eq_ok.mpr ⟨h, rfl⟩)

section Quotient

variable {n m q : Int64}

theorem natAbs_toInt_le (n : Int64) : n.toInt.natAbs ≤ intLimit := by
  have hlimit := intLimit_eq
  have := fitsInt_toInt n
  unfold FitsInt at this
  omega

theorem natAbs_tdiv_le (n : Int64) {m : Int} (hm : 2 ≤ m.natAbs) :
    (n.toInt.tdiv m).natAbs ≤ 4611686018427387904 := by
  have hlimit := intLimit_eq
  have htop := natAbs_toInt_le n
  rw [Int.natAbs_tdiv]
  calc n.toInt.natAbs / m.natAbs ≤ n.toInt.natAbs / 2 := Nat.div_le_div_left hm (by decide)
    _ ≤ 4611686018427387904 := by omega

/-- Division faults just by zero, and by minus one where the dividend is the least integer. -/
theorem noFault_divInt_iff : (divInt n m : Outcome ε Int64).NoFault ↔
    m.toInt ≠ 0 ∧ ¬(n.toInt = -9223372036854775808 ∧ m.toInt = -1) := by
  have hzero : m ≠ 0 ↔ m.toInt ≠ 0 := by
    rw [← Int64.toInt_zero, Ne, Ne, Int64.toInt_inj]
  by_cases hm : m.toInt = 0
  · have hm : ¬m ≠ 0 := fun h => hzero.mp h hm
    simp [divInt, Outcome.demand, NoFault, *]
  · have hdiv : (divInt n m : Outcome ε Int64) = checkInt (n.toInt.tdiv m.toInt) := by
      rw [divInt, Outcome.demand, if_pos (hzero.mpr hm), ok_bind]
    have htop := fitsInt_toInt n
    rw [hdiv, noFault_checkInt_iff]
    unfold FitsInt at htop ⊢
    by_cases hone : m.toInt = 1
    · rw [hone, Int.tdiv_one]
      omega
    by_cases hneg : m.toInt = -1
    · rw [hneg, Int.tdiv_neg, Int.tdiv_one]
      omega
    · have hsmall := natAbs_tdiv_le n (m := m.toInt) (by omega)
      omega

theorem noFault_remInt (h : (divInt n m : Outcome ε Int64).NoFault) :
    (remInt n m : Outcome ε Int64).NoFault :=
  noFault_bind h fun _ _ => noFault_ok _

theorem remInt_eq_ok {r : Int64} (h : (remInt n m : Outcome ε Int64) = .ok r) :
    r.toInt = n.toInt.tmod m.toInt := by
  obtain ⟨_, -, h⟩ := bind_eq_ok.mp h
  cases h
  exact Int64.toInt_mod n m

theorem toInt_of_divInt (h : (divInt n m : Outcome ε Int64) = .ok q) :
    q.toInt = n.toInt.tdiv m.toInt := by
  obtain ⟨_, -, h⟩ := bind_eq_ok.mp h
  exact toInt_of_checkInt h

theorem noFault_floorDivInt (h : (divInt n m : Outcome ε Int64).NoFault) :
    (floorDivInt n m : Outcome ε Int64).NoFault := by
  refine noFault_bind h fun q hq => noFault_bind (noFault_remInt h) fun r hr => ?_
  split_ifs with hround
  · -- what leaves a remainder is divided by two at least
    have htwo : 2 ≤ m.toInt.natAbs := by
      have hzero := (noFault_divInt_iff.mp h).1
      by_contra hlt
      have hunit : m.toInt = 1 ∨ m.toInt = -1 := by omega
      have hrem : r.toInt = 0 := by
        rw [remInt_eq_ok hr]
        rcases hunit with hunit | hunit <;> simp [hunit]
      exact hround.1 (Int64.toInt_inj.mp (hrem.trans Int64.toInt_zero.symm))
    have hsmall := natAbs_tdiv_le n htwo
    rw [← toInt_of_divInt hq] at hsmall
    exact noFault_checkInt (by unfold FitsInt; omega)
  · exact noFault_ok _

theorem fdiv_of_floorDivInt (h : (floorDivInt n m : Outcome ε Int64) = .ok q) :
    q.toInt = n.toInt.fdiv m.toInt := by
  obtain ⟨a, ha, h⟩ := bind_eq_ok.mp h
  obtain ⟨r, hr, h⟩ := bind_eq_ok.mp h
  obtain ⟨hm, -⟩ := noFault_divInt_iff.mp (noFault_of_eq_ok ha)
  have hquot := toInt_of_divInt ha
  have hrem : r ≠ 0 ↔ ¬m.toInt ∣ n.toInt := by
    rw [Int.dvd_iff_tmod_eq_zero, ← remInt_eq_ok hr, Ne, ← Int64.toInt_inj, Int64.toInt_zero]
  have hsign : (n < 0 ↔ ¬m < 0) ↔ (n.toInt < 0 ↔ 0 < m.toInt) := by
    simp only [Int64.lt_iff_toInt_lt, Int64.toInt_zero]
    omega
  rw [Int.fdiv_eq_ediv]
  rw [Int.tdiv_eq_ediv] at hquot
  -- the quotient toward zero is one too large just where it is negative and not exact
  have hunit : m.toInt < 0 ∧ m.toInt.sign = -1 ∨ 0 < m.toInt ∧ m.toInt.sign = 1 := by
    rcases Int.lt_or_gt_of_ne hm with hneg | hpos
    · exact .inl ⟨hneg, Int.sign_eq_neg_one_of_neg hneg⟩
    · exact .inr ⟨hpos, Int.sign_eq_one_of_pos hpos⟩
  split_ifs at h with hround
  · rw [hrem, hsign] at hround
    rw [toInt_of_checkInt h, hquot]
    grind
  · cases h
    rw [hrem, hsign] at hround
    rw [hquot]
    grind

theorem toInt_of_floorDivInt (hm : 0 < m.toInt) (h : (floorDivInt n m : Outcome ε Int64) = .ok q) :
    q.toInt = n.toInt / m.toInt := by
  rw [fdiv_of_floorDivInt h, Int.fdiv_eq_ediv_of_nonneg _ (Int.le_of_lt hm)]

end Quotient

namespace SymDim

variable {n : Int64}

theorem noFault_floorDiv (d : SymDim) (hn : n.toInt ≠ -1) :
    (d.floorDiv (.size n) : Outcome ε SymDim).NoFault := by
  cases d with
  | unknown | param _ =>
    simp only [floorDiv]
    split_ifs <;> exact noFault_ok _
  | size m =>
    simp only [floorDiv]
    split_ifs with hone hzero
    · exact noFault_ok _
    · exact noFault_ok _
    · have hint : n.toInt ≠ 0 := fun h => hzero (Int64.toInt_inj.mp (h.trans Int64.toInt_zero.symm))
      have hdiv : (divInt m n : Outcome ε Int64).NoFault :=
        noFault_divInt_iff.mpr ⟨hint, fun h => hn h.2⟩
      exact noFault_bind (noFault_floorDivInt hdiv) fun _ _ => noFault_ok _

/-- A size is divided by going over to its negative, which the least integer does not have. -/
theorem noFault_ceilDiv {d : SymDim} (hd : ∀ m ∈ d.value?, m.toInt ≠ -9223372036854775808)
    (hn : 0 < n.toInt) : (d.ceilDiv (.size n) : Outcome ε SymDim).NoFault := by
  cases d with
  | unknown | param _ =>
    simp only [ceilDiv]
    split_ifs <;> exact noFault_ok _
  | size m =>
    have hleast := hd m rfl
    have htop := fitsInt_toInt m
    unfold FitsInt at htop
    simp only [ceilDiv]
    split_ifs with hone hzero
    · exact noFault_ok _
    · exact noFault_ok _
    · refine noFault_bind (noFault_checkInt (by unfold FitsInt; omega)) fun a ha => ?_
      have hneg := toInt_of_checkInt ha
      have hdiv : (divInt a n : Outcome ε Int64).NoFault := noFault_divInt_iff.mpr (by omega)
      refine noFault_bind (noFault_floorDivInt hdiv) fun q hq => ?_
      refine noFault_bind (noFault_checkInt ?_) fun _ _ => noFault_ok _
      have hquot := toInt_of_floorDivInt hn hq
      have hle : q.toInt.natAbs ≤ a.toInt.natAbs := hquot ▸ Int.natAbs_ediv_le_natAbs _ _
      unfold FitsInt
      omega

/-- A quotient that is rounded up times its divisor is less than one divisor too large. -/
theorem ceilDiv_mul_lt {m c : Int64} (hn : 0 < n.toInt)
    (h : ((size m).ceilDiv (.size n) : Outcome ε SymDim) = .ok (.size c)) :
    c.toInt * n.toInt < m.toInt + n.toInt := by
  simp only [ceilDiv] at h
  split_ifs at h with hone hzero
  · cases h
    have hint : n.toInt = 1 := by rw [hone]; rfl
    rw [hint]
    omega
  · cases h
  · obtain ⟨a, ha, h⟩ := bind_eq_ok.mp h
    obtain ⟨q, hq, h⟩ := bind_eq_ok.mp h
    obtain ⟨b, hb, h⟩ := bind_eq_ok.mp h
    cases h
    have hround := Int.lt_ediv_add_one_mul_self a.toInt hn
    rw [← toInt_of_floorDivInt hn hq, toInt_of_checkInt ha, Int.add_mul, Int.one_mul] at hround
    rw [toInt_of_checkInt hb, Int.neg_mul]
    omega

end SymDim

namespace SliceRange

variable {dim start stop step span b : Int64}

def Leads (span step : Int64) : Prop := span > 0 ∧ step > 0 ∨ span < 0 ∧ step < 0

theorem stepCount_of_leads (h : Leads span step) : (stepCount span step : Outcome ε Int64) = (do
    let span ← absInt span
    let step ← absInt step
    let sum ← checkInt (span.toInt + step.toInt)
    let sum ← checkInt (sum.toInt - 1)
    divInt sum step) :=
  if_pos h

theorem stepCount_of_not_leads (h : ¬Leads span step) :
    (stepCount span step : Outcome ε Int64) = .ok 0 :=
  if_neg h

theorem Leads.toInt_ne_zero (h : Leads span step) : span.toInt ≠ 0 ∧ step.toInt ≠ 0 := by
  simp only [Leads, gt_iff_lt, Int64.lt_iff_toInt_lt, Int64.toInt_zero] at h
  omega

/-- Steps are counted unless the step and the distance are too long together. -/
theorem noFault_stepCount_iff (hleads : Leads span step) :
    (stepCount span step : Outcome ε Int64).NoFault ↔
      span.toInt.natAbs + step.toInt.natAbs ≤ 9223372036854775807 := by
  have hne := hleads.toInt_ne_zero
  rw [stepCount_of_leads hleads]
  constructor
  · intro h
    obtain ⟨hspan, h⟩ := noFault_bind_iff.mp h
    obtain ⟨a, ha, hdistance⟩ := exists_checkInt (ε := ε) (noFault_checkInt_iff.mp hspan)
    obtain ⟨hstep, h⟩ := noFault_bind_iff.mp (h a ha)
    obtain ⟨c, hc, hcount⟩ := exists_checkInt (ε := ε) (noFault_checkInt_iff.mp hstep)
    have hsum := (noFault_checkInt_iff.mp (noFault_bind_iff.mp (h c hc)).1).2
    omega
  · intro hsmall
    refine noFault_bind (noFault_checkInt (by unfold FitsInt; omega)) fun a ha => ?_
    refine noFault_bind (noFault_checkInt (by unfold FitsInt; omega)) fun c hc => ?_
    have hdistance := toInt_of_checkInt ha
    have hcount := toInt_of_checkInt hc
    refine noFault_bind (noFault_checkInt (by unfold FitsInt; omega)) fun s hs => ?_
    have hsum := toInt_of_checkInt hs
    refine noFault_bind (noFault_checkInt (by unfold FitsInt; omega)) fun t ht => ?_
    have hlast := toInt_of_checkInt ht
    exact noFault_divInt_iff.mpr (by omega)

theorem toInt_of_stepCount {n : Int64} (hleads : Leads span step)
    (h : (stepCount span step : Outcome ε Int64) = .ok n) :
    n.toInt = (span.toInt.natAbs + step.toInt.natAbs - 1) / step.toInt.natAbs := by
  have hne := hleads.toInt_ne_zero
  rw [stepCount_of_leads hleads] at h
  obtain ⟨a, ha, h⟩ := bind_eq_ok.mp h
  obtain ⟨c, hc, h⟩ := bind_eq_ok.mp h
  obtain ⟨s, hs, h⟩ := bind_eq_ok.mp h
  obtain ⟨t, ht, h⟩ := bind_eq_ok.mp h
  rw [toInt_of_divInt h, toInt_of_checkInt ht, toInt_of_checkInt hs, toInt_of_checkInt hc,
    toInt_of_checkInt ha, Int.tdiv_eq_ediv_of_nonneg (by omega)]

theorem lt_toInt_of_stepCount {n : Int64} (hleads : Leads span step)
    (h : (stepCount span step : Outcome ε Int64) = .ok n) {i : Nat} (hi : i < sizeOfInt n) :
    (i : Int) < n.toInt := by
  have hne := hleads.toInt_ne_zero
  have hnonneg : 0 ≤ n.toInt := by
    rw [toInt_of_stepCount hleads h]
    exact Int.ediv_nonneg (by omega) (by omega)
  rw [sizeOfInt_of_nonneg (by rwa [Int64.le_iff_toInt_le, Int64.toInt_zero])] at hi
  omega

theorem between_of_stepCount {n : Int64} (hleads : Leads span step)
    (h : (stepCount span step : Outcome ε Int64) = .ok n) {i : Nat} (hi : i < sizeOfInt n) :
    0 ≤ i * step.toInt ∧ i * step.toInt < span.toInt ∨
      span.toInt < i * step.toInt ∧ i * step.toInt ≤ 0 := by
  have hne := hleads.toInt_ne_zero
  have hcount := toInt_of_stepCount hleads h
  have hpos : (0 : Int) < step.toInt.natAbs := by omega
  have hlt : (i : Int) + 1 ≤ n.toInt := lt_toInt_of_stepCount hleads h hi
  have hshort : (i : Int) * step.toInt.natAbs < span.toInt.natAbs := by
    have hle := Int.mul_le_mul_of_nonneg_right hlt hpos.le
    have hall := Int.ediv_mul_le ((span.toInt.natAbs : Int) + step.toInt.natAbs - 1) hpos.ne'
    rw [hcount, Int.add_mul, Int.one_mul] at hle
    omega
  have hfar : 0 ≤ (i : Int) * step.toInt.natAbs := Int.mul_nonneg (by omega) hpos.le
  simp only [Leads, gt_iff_lt, Int64.lt_iff_toInt_lt, Int64.toInt_zero] at hleads
  rcases hleads with ⟨hspan, hstep⟩ | ⟨hspan, hstep⟩
  · have habs : (step.toInt.natAbs : Int) = step.toInt := by omega
    rw [habs] at hshort hfar
    omega
  · have habs : (step.toInt.natAbs : Int) = -step.toInt := by omega
    rw [habs, Int.mul_neg] at hshort hfar
    omega

def inside (dim step b : Int64) : Int64 :=
  if step > 0 then if b < 0 then 0 else if b > dim then dim else b
  else if b < -1 then -1 else if b > dim - 1 then dim - 1 else b

theorem toInt_sub_one (hdim : 0 ≤ dim.toInt) : (dim - 1).toInt = dim.toInt - 1 := by
  have htop := fitsInt_toInt dim
  unfold FitsInt at htop
  have hone : (1 : Int64).toInt = 1 := rfl
  rw [Int64.toInt_sub, hone, Int.bmod_eq_of_le] <;> omega

theorem hold_of_nonneg (hdim : 0 ≤ dim.toInt) (step b : Int64) :
    (hold dim step b : Outcome ε Int64) = .ok (inside dim step b) := by
  have htop := fitsInt_toInt dim
  unfold hold inside
  by_cases hstep : step > 0
  · have hordered : (0 : Int64) ≤ dim := by rwa [Int64.le_iff_toInt_le, Int64.toInt_zero]
    rw [if_pos hstep, if_pos hstep, clampInt, demand, if_pos hordered]
    rfl
  · obtain ⟨m, hm, hlast⟩ := exists_checkInt (ε := ε) (n := dim.toInt - 1)
      (by unfold FitsInt at htop ⊢; omega)
    obtain rfl : m = dim - 1 := Int64.toInt_inj.mp (hlast.trans (toInt_sub_one hdim).symm)
    have hordered : (-1 : Int64) ≤ dim - 1 := by
      have hone : (-1 : Int64).toInt = -1 := rfl
      rw [Int64.le_iff_toInt_le, hone, hlast]
      omega
    rw [if_neg hstep, if_neg hstep, hm, ok_bind, clampInt, demand, if_pos hordered]
    rfl

def least (step : Int64) : Int := if step > 0 then 0 else -1

theorem inside_bounds (hdim : 0 ≤ dim.toInt) (step b : Int64) :
    least step ≤ (inside dim step b).toInt ∧
      (inside dim step b).toInt ≤ least step + dim.toInt := by
  have hone : (-1 : Int64).toInt = -1 := rfl
  have hlast := toInt_sub_one hdim
  by_cases hstep : step > 0
  · rw [inside, least, if_pos hstep, if_pos hstep]
    split_ifs with hlow hhigh
    · rw [Int64.toInt_zero]
      omega
    · omega
    · rw [Int64.lt_iff_toInt_lt, Int64.toInt_zero] at hlow
      rw [gt_iff_lt, Int64.lt_iff_toInt_lt] at hhigh
      omega
  · rw [inside, least, if_neg hstep, if_neg hstep]
    split_ifs with hlow hhigh
    · rw [hone]
      omega
    · omega
    · rw [Int64.lt_iff_toInt_lt, hone] at hlow
      rw [gt_iff_lt, Int64.lt_iff_toInt_lt] at hhigh
      omega

def distance (dim start stop step : Int64) : Int64 :=
  inside dim step (fromEnd dim stop) - inside dim step (fromEnd dim start)

theorem toInt_distance (hdim : 0 ≤ dim.toInt) (start stop step : Int64) :
    (distance dim start stop step).toInt =
      (inside dim step (fromEnd dim stop)).toInt - (inside dim step (fromEnd dim start)).toInt ∧
    (distance dim start stop step).toInt.natAbs ≤ dim.toInt := by
  have htop := fitsInt_toInt dim
  unfold FitsInt at htop
  have hstart := inside_bounds hdim step (fromEnd dim start)
  have hstop := inside_bounds hdim step (fromEnd dim stop)
  have hexact : (distance dim start stop step).toInt =
      (inside dim step (fromEnd dim stop)).toInt - (inside dim step (fromEnd dim start)).toInt := by
    rw [distance, Int64.toInt_sub, Int.bmod_eq_of_le] <;> omega
  exact ⟨hexact, by omega⟩

theorem resolve_of_nonneg (hdim : 0 ≤ dim.toInt) (hstep : step ≠ 0) :
    resolve dim start stop step = (do
      let n ← stepCount (distance dim start stop step) step
      return ⟨inside dim step (fromEnd dim start), step, sizeOfInt n⟩) := by
  have hexact : (checkInt ((inside dim step (fromEnd dim stop)).toInt -
      (inside dim step (fromEnd dim start)).toInt) : Outcome RuleError Int64) =
        .ok (distance dim start stop step) := by
    rw [← (toInt_distance hdim start stop step).1]
    exact (if_pos (fitsInt_toInt _)).trans (congrArg ok (Int64.ofInt_toInt _))
  rw [resolve, refuseIf_neg hstep, ok_bind, hold_of_nonneg hdim, ok_bind, hold_of_nonneg hdim,
    ok_bind, hexact, ok_bind]

/-- A slice of a dimension faults just if its step leads in the direction of its bounds and cannot
be added to their distance. -/
theorem noFault_resolve_iff (hdim : 0 ≤ dim.toInt) (hstep : step ≠ 0) :
    (resolve dim start stop step).NoFault ↔ (Leads (distance dim start stop step) step →
      (distance dim start stop step).toInt.natAbs + step.toInt.natAbs ≤ 9223372036854775807) := by
  rw [resolve_of_nonneg hdim hstep]
  by_cases hleads : Leads (distance dim start stop step) step
  · rw [noFault_bind_iff, noFault_stepCount_iff hleads]
    simp [hleads]
  · rw [stepCount_of_not_leads hleads]
    simp [hleads]

theorem noFault_position {r : SliceRange} (hdim : 0 ≤ dim.toInt)
    (h : resolve dim start stop step = .ok r) {i : Nat} (hi : i < r.len) :
    (r.position i : Outcome ε Nat).NoFault := by
  have hlimit := intLimit_eq
  have hstep : step ≠ 0 := by
    obtain ⟨_, hrefuse, -⟩ := bind_eq_ok.mp h
    exact refuseIf_eq_ok.mp hrefuse
  have hstart := inside_bounds hdim step (fromEnd dim start)
  have hstop := inside_bounds hdim step (fromEnd dim stop)
  obtain ⟨hspan, hsmall⟩ := toInt_distance hdim start stop step
  have htop := fitsInt_toInt dim
  rw [resolve_of_nonneg hdim hstep] at h
  obtain ⟨n, hn, h⟩ := bind_eq_ok.mp h
  cases h
  by_cases hleads : Leads (distance dim start stop step) step
  · have hbetween := between_of_stepCount hleads hn hi
    have hindex : (intOfSize i).toInt = i := by
      have hlt := lt_toInt_of_stepCount hleads hn hi
      have hlast := fitsInt_toInt n
      exact toInt_intOfSize (by unfold FitsInt at hlast; omega)
    have hleast : -1 ≤ least step ∧ least step ≤ 0 := by
      unfold least
      split_ifs <;> omega
    unfold FitsInt at htop
    refine noFault_bind (noFault_checkInt ?_) fun distance hdistance => ?_
    · simp only [hindex, FitsInt]
      omega
    · refine noFault_bind (noFault_checkInt ?_) fun _ _ => noFault_ok _
      simp only [toInt_of_checkInt hdistance, hindex, FitsInt]
      omega
  · rw [stepCount_of_not_leads hleads] at hn
    cases hn
    cases hi

end SliceRange

end TensorGraph
