import Mathlib.Data.List.Nodup
import Mathlib.Data.List.Perm.Subperm
import TensorGraph.Proofs.Follows
import TensorGraph.Proofs.Related
import TensorGraph.Proofs.Words
import TensorGraph.Symbolic.Shape

/-! Axes that are resolved against a rank denote different dimensions below it. -/

namespace TensorGraph

theorem length_eraseDups_le (xs : List Nat) : xs.eraseDups.length ≤ xs.length := by
  induction hn : xs.length using Nat.strong_induction_on generalizing xs with
  | _ n ih =>
    cases xs with
    | nil => simp
    | cons x xs =>
      have hfilter := List.length_filter_le (fun b => !b == x) xs
      rw [List.length_cons] at hn
      have := ih _ (by omega) (xs.filter fun b => !b == x) rfl
      rw [List.eraseDups_cons, List.length_cons]
      omega

theorem nodup_of_length_eraseDups {xs : List Nat} (h : xs.eraseDups.length = xs.length) :
    xs.Nodup := by
  induction xs with
  | nil => exact .nil
  | cons x xs ih =>
    have hfilter := List.length_filter_le (fun b => !b == x) xs
    have herase := length_eraseDups_le (xs.filter fun b => !b == x)
    rw [List.eraseDups_cons, List.length_cons, List.length_cons] at h
    have hall : ∀ b ∈ xs, (!b == x) = true :=
      List.length_filter_eq_length_iff.mp (by omega)
    rw [List.filter_eq_self.mpr hall] at h
    refine List.nodup_cons.mpr ⟨fun hx => ?_, ih (by omega)⟩
    simpa using hall x hx

/-- As many positions are left as are not taken away. -/
theorem length_filter_range {dims : List Nat} {n : Nat} (hnodup : dims.Nodup)
    (hlt : ∀ k ∈ dims, k < n) :
    ((List.range n).filter fun k => !dims.contains k).length = n - dims.length := by
  have hperm : ((List.range n).filter fun k => dims.contains k).Perm dims := by
    refine (List.perm_ext_iff_of_nodup (List.nodup_range.filter _) hnodup).mpr fun k => ?_
    simpa using hlt k
  have hsum := List.length_eq_length_filter_add (l := List.range n) fun k => dims.contains k
  rw [List.length_range, hperm.length_eq] at hsum
  omega

namespace Axis

/-- An integer between zero and a size is a position below the size. -/
theorem sizeOfInt_lt_of_lt {n : Int64} {size : Nat} (hn : ¬n < 0) (hlt : n < intOfSize size) :
    sizeOfInt n < size := by
  have hpos : (0 : Int64) ≤ n := by simpa using hn
  rw [sizeOfInt_of_nonneg hpos]
  rw [Int64.le_iff_toInt_le, Int64.toInt_zero] at hpos
  rw [Int64.lt_iff_toInt_lt, intOfSize, Int64.toInt_ofNat'] at hlt
  have hmod : (size : Int).bmod (2 ^ 64) ≤ size := by
    by_cases hsmall : (size : Int) < 2 ^ 63
    · have heq : (size : Int).bmod (2 ^ 64) = size := Int.bmod_eq_of_le (by omega) (by omega)
      omega
    · have := Int.bmod_lt (x := size) (m := 2 ^ 64) (by decide)
      omega
  have : n.toInt < size := Int.lt_of_lt_of_le hlt hmod
  omega

theorem resolve_lt {rank : Nat} {axis : Int64} {k : Nat} (h : resolve rank axis = .ok k) :
    k < rank := by
  simp only [resolve, Outcome.ite_bind] at h
  obtain ⟨n, -, hn⟩ := Outcome.bind_eq_ok.mp h
  split_ifs at hn with hrange
  rw [not_or] at hrange
  cases hn
  exact sizeOfInt_lt_of_lt hrange.1 (by simpa using hrange.2)

theorem resolveAll_ok {rank : Nat} {axes : List Int64} {dims : List Nat}
    (h : resolveAll rank axes = .ok dims) :
    dims.length = axes.length ∧ dims.Nodup ∧ ∀ k ∈ dims, k < rank := by
  simp only [resolveAll, Outcome.bind_eq_ok, Outcome.refuseIf_eq_ok, not_not, Outcome.pure_eq,
    Outcome.ok.injEq] at h
  obtain ⟨ks, hks, -, hnodup, rfl⟩ := h
  have hresolved := Outcome.mapM_eq_ok.mp hks
  refine ⟨?_, nodup_of_length_eraseDups hnodup, fun k hk => ?_⟩
  · rw [List.length_mergeSort, hresolved.length_eq]
  · obtain ⟨i, hi⟩ := List.getElem?_of_mem (List.mem_mergeSort.mp hk)
    obtain ⟨axis, -, haxis⟩ := Related.get_right hresolved hi
    exact resolve_lt haxis

end Axis

end TensorGraph
