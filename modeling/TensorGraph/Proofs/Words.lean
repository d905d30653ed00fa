import Mathlib.Data.Int.Basic
import TensorGraph.Word

/-! Words of 64 bits as exact integers and sizes. -/

namespace TensorGraph

variable {ε : Type}

theorem fitsInt_toInt (n : Int64) : FitsInt n.toInt :=
  ⟨n.le_toInt, by have := n.toInt_lt; omega⟩

theorem toInt_ofInt {k : Int} (h : FitsInt k) : (Int64.ofInt k).toInt = k :=
  Int64.toInt_ofInt_of_le (by simpa using h.1) (by have := h.2; omega)

theorem toInt_of_checkInt {k : Int} {n : Int64} (h : (checkInt k : Outcome ε Int64) = .ok n) :
    n.toInt = k := by
  by_cases hk : FitsInt k
  · simp only [checkInt, hk, if_true, Outcome.ok.injEq] at h
    rw [← h, toInt_ofInt hk]
  · simp [checkInt, hk] at h

theorem eq_of_checkInt {k : Int} {n m : Int64} (h : (checkInt k : Outcome ε Int64) = .ok n)
    (hk : k = m.toInt) : n = m :=
  Int64.toInt_inj.mp ((toInt_of_checkInt h).trans hk)

theorem checkSize_eq_ok {n m : Nat} :
    (checkSize n : Outcome ε Nat) = .ok m ↔ n < sizeLimit ∧ n = m := by
  by_cases hn : n < sizeLimit <;> simp [checkSize, hn]

@[simp] theorem checkSize_ne_error (n : Nat) (e : ε) :
    (checkSize n : Outcome ε Nat) ≠ .error e := by
  by_cases hn : n < sizeLimit <;> simp [checkSize, hn]

@[simp] theorem checkInt_ne_error (n : Int) (e : ε) :
    (checkInt n : Outcome ε Int64) ≠ .error e := by
  by_cases hn : FitsInt n <;> simp [checkInt, hn]

theorem addInt?_of_checkInt {m n k : Int64}
    (h : (checkInt (m.toInt + n.toInt) : Outcome ε Int64) = .ok k) : addInt? m n = some k := by
  by_cases hfits : FitsInt (m.toInt + n.toInt)
  · simp only [checkInt, hfits, if_true, Outcome.ok.injEq, Int64.ofInt_add, Int64.ofInt_toInt] at h
    simp [addInt?, hfits, h]
  · simp [checkInt, hfits] at h

theorem addInt?_zero_left (n : Int64) : addInt? 0 n = some n := by
  have h := fitsInt_toInt n
  simp [addInt?, h]

theorem subInt?_self (n : Int64) : subInt? n n = some 0 := by
  simp [subInt?, FitsInt]

theorem toInt_of_addInt? {m n k : Int64} (h : addInt? m n = some k) :
    k.toInt = m.toInt + n.toInt := by
  simp only [addInt?, Option.ite_none_right_eq_some, Option.some.injEq] at h
  rw [← h.2, ← toInt_ofInt h.1, Int64.ofInt_add, Int64.ofInt_toInt, Int64.ofInt_toInt]

theorem toInt_of_subInt? {m n k : Int64} (h : subInt? m n = some k) :
    k.toInt = m.toInt - n.toInt := by
  simp only [subInt?, Option.ite_none_right_eq_some, Option.some.injEq] at h
  rw [← h.2, ← toInt_ofInt h.1, Int64.ofInt_sub, Int64.ofInt_toInt, Int64.ofInt_toInt]

theorem toInt_of_mulInt? {m n k : Int64} (h : mulInt? m n = some k) :
    k.toInt = m.toInt * n.toInt := by
  simp only [mulInt?, Option.ite_none_right_eq_some, Option.some.injEq] at h
  rw [← h.2, ← toInt_ofInt h.1, Int64.ofInt_mul, Int64.ofInt_toInt, Int64.ofInt_toInt]

theorem divInt_self {n : Int64} (hn : n ≠ 0) : (divInt n n : Outcome ε Int64) = .ok 1 := by
  have hint : n.toInt ≠ 0 := fun h => hn (Int64.toInt_inj.mp h)
  have hone : Int64.ofInt 1 = 1 := rfl
  simp [divInt, hn, Outcome.demand, checkInt, Int.tdiv_self hint, FitsInt, hone]

theorem intOfSize_sizeOfInt (n : Int64) : intOfSize (sizeOfInt n) = n := by
  rw [intOfSize, sizeOfInt]
  apply Int64.toBitVec.inj
  simp

theorem sizeOfInt_lt (n : Int64) : sizeOfInt n < sizeLimit := by
  have := n.toUInt64.toNat_lt
  simpa [sizeOfInt, sizeLimit] using this

theorem sizeOfInt_intOfSize {n : Nat} (h : n < sizeLimit) : sizeOfInt (intOfSize n) = n := by
  rw [intOfSize, sizeOfInt]
  rw [sizeLimit] at h
  simp [Nat.mod_eq_of_lt h]

theorem intOfSize_inj {m n : Nat} (hm : m < sizeLimit) (hn : n < sizeLimit)
    (h : intOfSize m = intOfSize n) : m = n := by
  rw [← sizeOfInt_intOfSize hm, h, sizeOfInt_intOfSize hn]

theorem toInt_intOfSize {n : Nat} (h : n < intLimit) : (intOfSize n).toInt = n := by
  rw [intOfSize, Int64.toInt_ofNat_of_lt h]

theorem sizeOfInt_of_nonneg {n : Int64} (h : 0 ≤ n) : sizeOfInt n = n.toInt.toNat :=
  Int64.toNat_toUInt64_of_le h

/-- A size of `2 ^ 63` or more is read as a negative integer. -/
theorem toInt_intOfSize_neg {n : Nat} (hle : intLimit ≤ n) (hn : n < sizeLimit) :
    (intOfSize n).toInt < 0 := by
  have hlimit := intLimit_eq
  by_contra hneg
  have hnonneg : (0 : Int64) ≤ intOfSize n := Int64.le_iff_toInt_le.mpr (by simpa using hneg)
  have hvalue := sizeOfInt_of_nonneg hnonneg
  rw [sizeOfInt_intOfSize hn] at hvalue
  have htop := (fitsInt_toInt (intOfSize n)).2
  omega

theorem intOfSize_toNat {n : Int64} (h : 0 ≤ n) : intOfSize n.toInt.toNat = n := by
  rw [← sizeOfInt_of_nonneg h, intOfSize_sizeOfInt]

end TensorGraph
