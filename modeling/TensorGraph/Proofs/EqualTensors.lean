import TensorGraph.Proofs.Writes
import TensorGraph.Tensor.Agreement

/-! Agreement of integer tensors without a tolerance. It decides equality, and lists the positions
at which tensors of one shape differ, where the distance of every pair of elements can be
computed. -/

namespace TensorGraph

open Outcome

section

variable {ε α : Type}

theorem Outcome.filterAuxM_eq {p : α → Outcome ε Bool} {P : α → Prop} [DecidablePred P]
    {q : α → Bool} (h : ∀ a, p a = if P a then .ok (q a) else .fault) (as kept : List α) :
    as.filterAuxM p kept = if ∀ a ∈ as, P a then .ok ((as.filter q).reverse ++ kept)
      else .fault := by
  induction as generalizing kept with
  | nil => simp [List.filterAuxM]
  | cons a as ih =>
    rw [List.filterAuxM, h]
    by_cases ha : P a
    · rw [if_pos ha, ok_bind, ih]
      by_cases hq : q a = true <;> simp [ha, hq]
    · rw [if_neg ha, if_neg fun hall => ha (hall a List.mem_cons_self)]
      rfl

theorem Outcome.filterM_eq {p : α → Outcome ε Bool} {P : α → Prop} [DecidablePred P] {q : α → Bool}
    (h : ∀ a, p a = if P a then .ok (q a) else .fault) (as : List α) :
    as.filterM p = if ∀ a ∈ as, P a then .ok (as.filter q) else .fault := by
  rw [List.filterM, filterAuxM_eq h]
  split_ifs <;> simp

end

/-- Whether the distance of two integers and the magnitude of the second have 64 bits. -/
def Comparable (a b : Int64) : Prop :=
  (a.toInt - b.toInt).natAbs < intLimit ∧ b.toInt.natAbs < intLimit

instance (a b : Int64) : Decidable (Comparable a b) := inferInstanceAs (Decidable (_ ∧ _))

theorem fitsInt_natAbs_iff {n : Int} : FitsInt n.natAbs ↔ n.natAbs < intLimit := by
  have hlimit := intLimit_eq
  unfold FitsInt
  omega

/-- Without a tolerance integers are near just if they are equal. -/
theorem nearInt_zero {ε : Type} (a b : Int64) : (nearInt 0 0 a b : Outcome ε Bool) =
    if Comparable a b then .ok (decide (a = b)) else .fault := by
  have hzero : (0 : Int64).toInt = 0 := rfl
  have hnone : (checkInt 0 : Outcome ε Int64) = .ok 0 := rfl
  have hnear : (nearInt 0 0 a b : Outcome ε Bool) = checkInt (a.toInt - b.toInt) >>=
      fun difference =>
      absInt difference >>= fun distance => absInt b >>= fun _ => .ok (decide (distance ≤ 0)) := by
    simp only [nearInt, hzero, Int.zero_mul, hnone, ok_bind, Int.add_zero, pure_eq]
  have hheld : Comparable a b ↔ FitsInt (a.toInt - b.toInt).natAbs ∧ FitsInt b.toInt.natAbs := by
    rw [fitsInt_natAbs_iff, fitsInt_natAbs_iff]
    rfl
  rw [hnear]
  by_cases hdifference : FitsInt (a.toInt - b.toInt)
  · rw [checkInt, if_pos hdifference, ok_bind, absInt, toInt_ofInt hdifference, checkInt]
    by_cases hdistance : FitsInt (a.toInt - b.toInt).natAbs
    · rw [if_pos hdistance, ok_bind, absInt, checkInt]
      by_cases hsecond : FitsInt b.toInt.natAbs
      · have hequal : Int64.ofInt (a.toInt - b.toInt).natAbs ≤ 0 ↔ a = b := by
          rw [Int64.le_iff_toInt_le, toInt_ofInt hdistance, ← Int64.toInt_inj, hzero]
          omega
        rw [if_pos hsecond, ok_bind, if_pos (hheld.mpr ⟨hdistance, hsecond⟩)]
        simp only [hequal]
      · rw [if_neg hsecond, if_neg fun h => hsecond (hheld.mp h).2]
        rfl
    · rw [if_neg hdistance, if_neg fun h => hdistance (hheld.mp h).1]
      rfl
  · have hfar : ¬Comparable a b := by
      rw [hheld]
      unfold FitsInt at *
      omega
    rw [checkInt, if_neg hdifference, if_neg hfar]
    rfl

theorem Disagreement.message_values {α : Type} [Element α] (n : Nat) (es : List (Index × α × α)) :
    ∃ listed, (values n es).message =
      "Tensor values differ at " ++ toString es.length ++ " of " ++ toString n ++ " indexes: " ++
      listed := by
  refine ⟨?_ ++ ?_, ?_⟩
  rotate_left 2
  · unfold message
    dsimp only
    rw [← String.append_assoc]

namespace Tensor

variable {x y : Tensor Int64} {index : Index} {a b : Int64}

def differences (x y : Tensor Int64) : List (Index × Int64 × Int64) :=
  ((Index.all x.shape).zip (x.data.zip y.data)).filter fun e => e.2.1 ≠ e.2.2

/-- Whether the positions of two tensors of one shape can be counted, and the elements at each of
them compared. -/
def AllComparable (x y : Tensor Int64) : Prop :=
  x.shape.Counted ∧ ∀ e ∈ x.data.zip y.data, Comparable e.1 e.2

instance (x y : Tensor Int64) : Decidable (x.AllComparable y) := inferInstanceAs (Decidable (_ ∧ _))

theorem length_zip_data (hshape : x.shape = y.shape) :
    (x.data.zip y.data).length = (Index.all x.shape).length := by
  rw [List.length_zip, x.length_data, y.length_data, hshape, Index.length_all, Nat.min_self]

theorem mem_zip_zip_iff (hshape : x.shape = y.shape) :
    (index, a, b) ∈ (Index.all x.shape).zip (x.data.zip y.data) ↔
      x.get? index = some a ∧ y.get? index = some b := by
  have hpairs : (index, a, b) ∈ (Index.all x.shape).zip (x.data.zip y.data) ↔
      ∃ k : Nat, (Index.all x.shape)[k]? = some index ∧ x.data[k]? = some a ∧
        y.data[k]? = some b := by
    simp only [List.mem_iff_getElem?, List.getElem?_zip_eq_some]
  rw [hpairs]
  constructor
  · rintro ⟨k, hindex, ha, hb⟩
    refine ⟨mem_zip_iff.mp ?_, mem_zip_iff.mp ?_⟩
    · exact List.mem_of_getElem? (List.getElem?_zip_eq_some.mpr ⟨hindex, ha⟩)
    · exact List.mem_of_getElem? (List.getElem?_zip_eq_some.mpr ⟨hshape ▸ hindex, hb⟩)
  · rintro ⟨ha, hb⟩
    have hinside := isSome_get?_iff.mp (Option.isSome_of_eq_some ha)
    refine ⟨_, Index.getElem?_all hinside, ?_, ?_⟩
    · rw [← ha, get?_of_lt hinside]
    · rw [← hb, get?_of_lt (hshape ▸ hinside), hshape]

theorem mem_differences_iff (hshape : x.shape = y.shape) : (index, a, b) ∈ x.differences y ↔
    (x.get? index = some a ∧ y.get? index = some b) ∧ a ≠ b := by
  rw [differences, List.mem_filter, mem_zip_zip_iff hshape, decide_eq_true_iff]

theorem map_fst_differences (hshape : x.shape = y.shape) : (x.differences y).map Prod.fst =
    (Index.all x.shape).filter fun index => x.get? index ≠ y.get? index := by
  have hdiffer : ∀ e ∈ (Index.all x.shape).zip (x.data.zip y.data),
      decide (e.2.1 ≠ e.2.2) = decide (x.get? e.1 ≠ y.get? e.1) := by
    intro e he
    obtain ⟨ha, hb⟩ := (mem_zip_zip_iff hshape).mp he
    simp [ha, hb]
  rw [differences, List.filter_congr hdiffer]
  conv_rhs => rw [← List.map_fst_zip (length_zip_data hshape).ge, List.filter_map]
  rfl

theorem differences_eq_nil_iff (hshape : x.shape = y.shape) : x.differences y = [] ↔ x = y := by
  rw [← List.map_eq_nil_iff (f := Prod.fst), map_fst_differences hshape, List.filter_eq_nil_iff]
  constructor
  · intro hsame
    refine ext_get? hshape fun index hindex => ?_
    simpa using hsame index (Index.mem_all_iff.mpr hindex)
  · rintro rfl index -
    simp

/-- The differences are collected where all pairs of elements can be compared. -/
theorem agree_of_shape_eq (hshape : x.shape = y.shape) : x.agree y =
    if x.AllComparable y then refuseIf (!(x.differences y).isEmpty)
      (.values x.count (x.differences y))
    else .fault := by
  have htest : ∀ e : Index × Int64 × Int64,
      (nearInt 0 0 e.2.1 e.2.2 >>= fun near => .ok (!near) : Outcome (Disagreement Int64) Bool) =
        if Comparable e.2.1 e.2.2 then .ok (decide (e.2.1 ≠ e.2.2)) else .fault := by
    intro e
    rw [nearInt_zero]
    split_ifs <;> simp
  have hrun : x.agree y = Index.checkedAll x.shape >>= fun positions =>
      (positions.zip (x.data.zip y.data)).filterM
        (fun e => nearInt 0 0 e.2.1 e.2.2 >>= fun near => .ok (!near)) >>= fun es =>
          refuseIf (!es.isEmpty) (.values x.count es) := by
    rw [agree, agreeWithin, refuseIf_neg (not_not.mpr hshape)]
    rfl
  have hpairs : (∀ e ∈ (Index.all x.shape).zip (x.data.zip y.data), Comparable e.2.1 e.2.2) ↔
      ∀ e ∈ x.data.zip y.data, Comparable e.1 e.2 := by
    conv_rhs => rw [← List.map_snd_zip (length_zip_data hshape).le, List.forall_mem_map]
  rw [hrun, Layout.checkedAll_eq]
  by_cases hcounted : x.shape.Counted
  · rw [if_pos hcounted, ok_bind, filterM_eq htest]
    by_cases hall : ∀ e ∈ x.data.zip y.data, Comparable e.1 e.2
    · rw [if_pos (hpairs.mpr hall), if_pos ⟨hcounted, hall⟩]
      rfl
    · rw [if_neg (mt hpairs.mp hall), if_neg fun h => hall h.2]
      rfl
  · rw [if_neg hcounted, if_neg fun h => hcounted h.1]
    rfl

theorem agree_eq (x y : Tensor Int64) : x.agree y =
    if x.shape ≠ y.shape then .error (.shapes x.shape y.shape)
    else if ¬x.AllComparable y then .fault
    else if x = y then .ok ()
    else .error (.values x.count (x.differences y)) := by
  by_cases hshape : x.shape = y.shape
  · have hnone : (x.differences y).isEmpty = true ↔ x = y := by
      rw [List.isEmpty_iff, differences_eq_nil_iff hshape]
    rw [if_neg (not_not.mpr hshape), agree_of_shape_eq hshape, refuseIf]
    simp only [Bool.not_eq_true', Bool.eq_false_iff, ne_eq, hnone, ite_not]
  · rw [if_pos hshape, agree, agreeWithin, refuseIf, if_pos hshape]
    rfl

/-- What is told of tensors that differ: each position at which they do, with the elements there. -/
theorem values_of_agree {n : Nat} {es : List (Index × Int64 × Int64)}
    (h : x.agree y = .error (.values n es)) :
    n = x.count ∧
      (es.map Prod.fst = (Index.all x.shape).filter fun index => x.get? index ≠ y.get? index) ∧
      (∀ e ∈ es, x.get? e.1 = some e.2.1 ∧ y.get? e.1 = some e.2.2) ∧
      ∃ listed, (Disagreement.values n es).message = "Tensor values differ at " ++
        toString ((Index.all x.shape).countP fun index => x.get? index ≠ y.get? index) ++ " of " ++
        toString n ++
          " indexes: " ++ listed := by
  have hshape : x.shape = y.shape := by
    by_contra hne
    rw [agree_eq, if_pos hne] at h
    cases h
  rw [agree_eq, if_neg (not_not.mpr hshape)] at h
  split_ifs at h with hall hsame
  cases h
  have hpositions := map_fst_differences hshape
  refine ⟨rfl, hpositions, fun e he => ((mem_differences_iff hshape).mp he).1, ?_⟩
  have hcount : ((Index.all x.shape).countP fun index => x.get? index ≠ y.get? index) =
      (x.differences y).length := by
    rw [List.countP_eq_length_filter, ← hpositions, List.length_map]
  rw [hcount]
  exact Disagreement.message_values _ _

/-- Integer tensors agree without a tolerance just if they are equal; otherwise it is told that the
shapes differ, or how many positions there are at which the elements do, and which these are. A
pair of elements that cannot be compared is a fault, and so are positions that cannot be
counted. -/
theorem agree_decides (x y : Tensor Int64) :
    ((∃ s t, x.agree y = .error (.shapes s t)) ↔ x.shape ≠ y.shape) ∧
    (x.agree y = .fault ↔ x.shape = y.shape ∧ ¬x.AllComparable y) ∧
    (x.shape = y.shape → x.AllComparable y → (x.agree y = .ok () ↔ x = y) ∧
      ((∃ n es, x.agree y = .error (.values n es)) ↔ x ≠ y)) ∧
    ∀ n es, x.agree y = .error (.values n es) → n = x.count ∧
      (es.map Prod.fst = (Index.all x.shape).filter fun index => x.get? index ≠ y.get? index) ∧
      (∀ e ∈ es, x.get? e.1 = some e.2.1 ∧ y.get? e.1 = some e.2.2) ∧
      ∃ listed, (Disagreement.values n es).message = "Tensor values differ at " ++
        toString ((Index.all x.shape).countP fun index => x.get? index ≠ y.get? index) ++ " of " ++
        toString n ++
          " indexes: " ++ listed := by
  refine ⟨?_, ?_, fun hshape hall => ⟨?_, ?_⟩, fun n es => values_of_agree⟩
  · rw [agree_eq]
    split_ifs <;> simp_all
  · rw [agree_eq]
    split_ifs <;> simp_all
  · rw [agree_eq, if_neg (not_not.mpr hshape), if_neg (not_not.mpr hall)]
    split_ifs <;> simp_all
  · rw [agree_eq, if_neg (not_not.mpr hshape), if_neg (not_not.mpr hall)]
    split_ifs <;> simp_all

/-- Two of four elements differ. -/
theorem agree_decides_pair :
    (∃ n es, (⟨[2, 2], [1, 2, 3, 4], rfl⟩ : Tensor Int64).agree ⟨[2, 2], [1, 5, 3, 6], rfl⟩ =
      .error (.values n es) ∧ n = 4 ∧ es.map Prod.fst = [[0, 1], [1, 1]]) ∧
    ∃ s t, (⟨[2], [1, 2], rfl⟩ : Tensor Int64).agree ⟨[1, 2], [1, 2], rfl⟩ =
      .error (.shapes s t) := by
  obtain ⟨-, -, hvalues, htold⟩ :=
    agree_decides ⟨[2, 2], [1, 2, 3, 4], rfl⟩ ⟨[2, 2], [1, 5, 3, 6], rfl⟩
  have hcounted : Shape.Counted [2, 2] := by decide
  have hall : (⟨[2, 2], [1, 2, 3, 4], rfl⟩ : Tensor Int64).AllComparable ⟨[2, 2], [1, 5, 3, 6],
      rfl⟩ :=
    ⟨hcounted, by simp [Comparable, intLimit]⟩
  have hne : (⟨[2, 2], [1, 2, 3, 4], rfl⟩ : Tensor Int64) ≠ ⟨[2, 2], [1, 5, 3, 6], rfl⟩ := by decide
  obtain ⟨n, es, hes⟩ := (hvalues rfl hall).2.mpr hne
  obtain ⟨hn, hpositions, -⟩ := htold n es hes
  refine ⟨⟨n, es, hes, hn, hpositions.trans (by decide)⟩, ?_⟩
  exact (agree_decides ⟨[2], [1, 2], rfl⟩ ⟨[1, 2], [1, 2], rfl⟩).1.mpr (by decide)

/-- The least integer has no magnitude of 64 bits, so that it cannot be compared even with itself,
and the greatest one is too far from minus one. -/
theorem agree_fault_extremes :
    (ofList [Int64.minValue]).agree (ofList [Int64.minValue]) = .fault ∧
    (ofList [Int64.maxValue]).agree (ofList [-1]) = .fault := by
  decide

end Tensor

end TensorGraph
