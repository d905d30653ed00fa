import TensorGraph.Proofs.Faults.Counting
import TensorGraph.Proofs.Rules.Spatial
import TensorGraph.Symbolic.Extent

/-! What the arithmetic of dimensions tells of known sizes, where its result is known. -/

namespace TensorGraph

open Outcome

variable {ε : Type}

/-- As many elements of four bytes fill the memory. -/
def countLimit : Nat := 2305843009213693952

/-- Quotients by positive integers do not fault. -/
theorem exists_floorDivInt {n m : Int64} (hm : 0 < m.toInt) :
    ∃ q, (floorDivInt n m : Outcome ε Int64) = .ok q ∧ q.toInt = n.toInt / m.toInt := by
  have hdiv : (divInt n m : Outcome ε Int64).NoFault := noFault_divInt_iff.mpr (by omega)
  have herror : ∀ e, (divInt n m : Outcome ε Int64) ≠ .error e := fun e =>
    bind_ne_error (demand_ne_error e) fun _ _ => checkInt_ne_error _ e
  cases h : (floorDivInt n m : Outcome ε Int64) with
  | ok q => exact ⟨q, rfl, toInt_of_floorDivInt hm h⟩
  | fault => exact absurd h (noFault_floorDivInt hdiv)
  | error e =>
    refine absurd h (bind_ne_error (herror e) fun q _ => bind_ne_error ?_ fun r _ => ?_)
    · exact bind_ne_error (herror e) fun _ _ => by simp
    · split_ifs
      · exact checkInt_ne_error _ e
      · simp

/-- The multiple that a quotient which is rounded up stands for. -/
theorem ceil_bounds (m : Nat) (hn : 0 < n) :
    m ≤ (m + n - 1) / n * n ∧ (m + n - 1) / n * n < m + n := by
  have hlt := Nat.lt_div_mul_add (a := m + n - 1) hn
  have hle := Nat.div_mul_le_self (m + n - 1) n
  omega

namespace SymDim

section Integers

variable {m n k : Int64}

theorem toInt_of_mul (h : size m * size k = size n) : n.toInt = m.toInt * k.toInt := by
  change SymDim.mul (size m) (size k) = size n at h
  unfold SymDim.mul at h
  by_cases hk : k = 1
  · rw [if_pos (congrArg size hk)] at h
    cases h
    rw [hk]
    exact (Int.mul_one _).symm
  rw [if_neg fun h => hk (size.inj h)] at h
  by_cases hm : m = 1
  · rw [if_pos (congrArg size hm)] at h
    cases h
    rw [hm]
    exact (Int.one_mul _).symm
  rw [if_neg fun h => hm (size.inj h)] at h
  by_cases hzero : size m = size 0 ∨ size k = size 0
  · rw [if_pos hzero] at h
    cases h
    rcases hzero with h | h <;> rw [size.inj h]
    · exact (Int.zero_mul _).symm
    · exact (Int.mul_zero _).symm
  · rw [if_neg hzero] at h
    exact toInt_of_mulInt? (Window.ofOption_eq_size.mp h)

theorem toInt_of_floorDiv (hk : 0 < k.toInt)
    (h : ((size m).floorDiv (size k) : Outcome ε SymDim) = .ok (size n)) :
    n.toInt = m.toInt / k.toInt := by
  unfold floorDiv at h
  dsimp only at h
  by_cases hone : k = 1
  · rw [if_pos hone] at h
    cases h
    rw [hone]
    exact (Int.ediv_one _).symm
  rw [if_neg hone] at h
  have hzero : k ≠ 0 := by
    rintro rfl
    exact absurd hk (by decide)
  rw [if_neg hzero] at h
  obtain ⟨q, hq, h⟩ := bind_eq_ok.mp h
  cases h
  exact toInt_of_floorDivInt hk hq

end Integers

section Sizes

variable {m n : Nat}

theorem size_eq_ofSize {k : Int64} (hn : n < intLimit) (h : k.toInt = n) :
    size k = ofSize n :=
  congrArg size (Int64.toInt_inj.mp (h.trans (toInt_intOfSize hn).symm))

theorem ofSize_add (h : m + n < intLimit) : ofSize m + ofSize n = ofSize (m + n) := by
  have hlimit := intLimit_eq
  change add (ofSize m) (ofSize n) = _
  simp only [ofSize, add]
  split_ifs with hzero
  · obtain rfl : n = 0 := intOfSize_inj (by unfold sizeLimit; omega) (by decide) hzero
    rfl
  · have hm := toInt_intOfSize (n := m) (by omega)
    have hn := toInt_intOfSize (n := n) (by omega)
    have hfits : FitsInt ((intOfSize m).toInt + (intOfSize n).toInt) := by unfold FitsInt; omega
    have hsome : addInt? (intOfSize m) (intOfSize n) = some (intOfSize m + intOfSize n) :=
      if_pos hfits
    have hvalue := toInt_of_addInt? hsome
    rw [hsome, ofOption]
    exact size_eq_ofSize h (by omega)

theorem ofSize_sub (hle : n ≤ m) (hm : m < intLimit) :
    ofSize m - ofSize n = ofSize (m - n) := by
  have hlimit := intLimit_eq
  change sub (ofSize m) (ofSize n) = _
  simp only [ofSize, sub]
  split_ifs with hzero
  · obtain rfl : n = 0 := intOfSize_inj (by unfold sizeLimit; omega) (by decide) hzero
    rfl
  · have hm' := toInt_intOfSize hm
    have hn := toInt_intOfSize (n := n) (by omega)
    have hfits : FitsInt ((intOfSize m).toInt - (intOfSize n).toInt) := by unfold FitsInt; omega
    have hsome : subInt? (intOfSize m) (intOfSize n) = some (intOfSize m - intOfSize n) :=
      if_pos hfits
    have hvalue := toInt_of_subInt? hsome
    rw [hsome, ofOption]
    exact size_eq_ofSize (by omega) (by omega)

theorem ofSize_mul (h : m * n < intLimit) : ofSize m * ofSize n = ofSize (m * n) := by
  have hlimit := intLimit_eq
  change mul (ofSize m) (ofSize n) = _
  have hword : intOfSize (m * n) = intOfSize m * intOfSize n := Int64.ofNat_mul m n
  unfold mul
  split_ifs with hone hone' hzero
  · rw [ofSize, ofSize, hword, size.inj hone, Int64.mul_one]
  · rw [ofSize, ofSize, hword, size.inj hone', Int64.one_mul]
  · rw [ofSize, hword]
    rcases hzero with hzero | hzero <;> simp [size.inj hzero]
  · have hm : m ≠ 0 := by
      rintro rfl
      exact hzero (.inl rfl)
    have hn : n ≠ 0 := by
      rintro rfl
      exact hzero (.inr rfl)
    have hle := Nat.le_mul_of_pos_right m (Nat.pos_of_ne_zero hn)
    have hle' := Nat.le_mul_of_pos_left n (Nat.pos_of_ne_zero hm)
    have hfits : FitsInt ((intOfSize m).toInt * (intOfSize n).toInt) := by
      rw [toInt_intOfSize (by omega), toInt_intOfSize (by omega), ← Int.natCast_mul]
      unfold FitsInt
      omega
    have hsome : mulInt? (intOfSize m) (intOfSize n) = some (intOfSize m * intOfSize n) :=
      if_pos hfits
    simp only [ofSize, hsome, ofOption, hword]

theorem floorDiv_ofSize (hm : m < intLimit) (hn : 0 < n ∧ n < intLimit) :
    ((ofSize m).floorDiv (ofSize n) : Outcome ε SymDim) = .ok (ofSize (m / n)) := by
  have hint := toInt_intOfSize hn.2
  obtain ⟨q, hq, hquot⟩ :=
    exists_floorDivInt (ε := ε) (n := intOfSize m) (m := intOfSize n) (by omega)
  rw [toInt_intOfSize hm, hint, ← Int.natCast_ediv] at hquot
  have hvalue : size q = ofSize (m / n) := size_eq_ofSize ((Nat.div_le_self m n).trans_lt hm) hquot
  have hzero : intOfSize n ≠ 0 := by
    intro h
    rw [h, Int64.toInt_zero] at hint
    omega
  simp only [ofSize, floorDiv, if_neg hzero, hq, ok_bind, pure_eq]
  split_ifs with hone
  · obtain rfl : n = 1 := intOfSize_inj (hn.2.trans (by decide)) (by decide) hone
    rw [Nat.div_one]
  · exact congrArg ok hvalue

theorem ceilDiv_ofSize (hm : m < intLimit) (hn : 0 < n ∧ n < intLimit) :
    ((ofSize m).ceilDiv (ofSize n) : Outcome ε SymDim) = .ok (ofSize ((m + n - 1) / n)) := by
  have hlimit := intLimit_eq
  have hint := toInt_intOfSize hn.2
  have hint' := toInt_intOfSize hm
  have hzero : intOfSize n ≠ 0 := by
    intro h
    rw [h, Int64.toInt_zero] at hint
    omega
  obtain ⟨hle, hlt⟩ := ceil_bounds m hn.1
  generalize (m + n - 1) / n = c at hle hlt ⊢
  have hceil : -(m : Int) / n = -(c : Int) := by
    have hle' : (m : Int) ≤ c * n := by exact_mod_cast hle
    have hlt' : (c : Int) * n < m + n := by exact_mod_cast hlt
    refine (Int.ediv_eq_iff_of_pos (by omega)).mpr ⟨?_, ?_⟩
    · rw [Int.neg_mul]
      omega
    · rw [Int.neg_mul]
      omega
  have hself : c ≤ m := by
    by_contra hmore
    have hprod : (m + 1) * n ≤ c * n := Nat.mul_le_mul_right n (by omega)
    have hone : m ≤ m * n := Nat.le_mul_of_pos_right m hn.1
    rw [Nat.add_mul, Nat.one_mul] at hprod
    omega
  simp only [ofSize, ceilDiv, if_neg hzero]
  split_ifs with hone
  · obtain rfl : n = 1 := intOfSize_inj (hn.2.trans (by decide)) (by decide) hone
    rw [show m = c by omega]
  · have hfits : FitsInt (-(intOfSize m).toInt) := by unfold FitsInt; omega
    obtain ⟨a, ha, hneg⟩ := exists_checkInt (ε := ε) hfits
    obtain ⟨q, hq, hquot⟩ := exists_floorDivInt (ε := ε) (n := a) (m := intOfSize n) (by omega)
    rw [hneg, hint, hint', hceil] at hquot
    have hfits' : FitsInt (-q.toInt) := by unfold FitsInt; omega
    obtain ⟨d, hd, hvalue⟩ := exists_checkInt (ε := ε) hfits'
    simp only [ha, hq, hd, ok_bind, pure_eq]
    exact congrArg ok (size_eq_ofSize (by omega) (by omega))

end Sizes

theorem toInt_of_pad {size n : Nat} {start stop : Int64} (hsize : size < countLimit)
    (hn : n < countLimit) (h : (ofSize size).pad (some start) (some stop) = .ok (ofSize n)) :
    (n : Int) = size + start.toInt + stop.toInt := by
  have hlimit := intLimit_eq
  obtain ⟨total, htotal, h⟩ := bind_eq_ok.mp h
  obtain ⟨_, -, h⟩ := bind_eq_ok.mp h
  obtain ⟨m, hm, hsum⟩ := Window.eq_size_of_add (Outcome.ok.inj h)
  cases hm
  have htotal := toInt_of_addInt? (orRefuse_eq_ok.mp htotal)
  unfold countLimit at hsize hn
  rw [toInt_intOfSize (by omega), toInt_intOfSize (by omega)] at hsum
  omega

end SymDim

end TensorGraph
