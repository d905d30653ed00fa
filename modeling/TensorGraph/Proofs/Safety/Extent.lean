import Mathlib.Algebra.BigOperators.Group.List.Basic
import Mathlib.Algebra.GroupWithZero.Nat
import Mathlib.Data.List.Forall2
import Mathlib.Data.List.Perm.Subperm
import TensorGraph.Proofs.Kernels.Reading

/-! Counts, strides and positions of shapes that fit 64 bits. Running products pass over dimensions
of size zero only when these come first, so what has to fit is the product of the other sizes. -/

namespace TensorGraph

variable {ε : Type}

namespace Shape

variable {a b shape : Shape}

/-- The element count that a shape has when its dimensions of size zero count as one. -/
def extent : Shape → Nat
  | [] => 1
  | d :: ds => max d 1 * extent ds

theorem extent_pos (shape : Shape) : 0 < shape.extent := by
  induction shape with
  | nil => exact Nat.one_pos
  | cons d ds ih => exact Nat.mul_pos (by omega) ih

theorem volume_le_extent (shape : Shape) : shape.volume ≤ shape.extent := by
  induction shape with
  | nil => exact le_rfl
  | cons d ds ih => exact Nat.mul_le_mul (le_max_left d 1) ih

theorem extent_eq_volume (h : ∀ n ∈ shape, 0 < n) : shape.extent = shape.volume := by
  induction shape with
  | nil => rfl
  | cons d ds ih =>
    rw [List.forall_mem_cons] at h
    rw [extent, volume, ih h.2, max_eq_left h.1]

theorem volume_append (a b : Shape) : Shape.volume (a ++ b) = a.volume * b.volume := by
  induction a with
  | nil => simp [volume]
  | cons d ds ih => simp [volume, ih, Nat.mul_assoc]

theorem extent_le_of_sublist (h : a.Sublist b) : a.extent ≤ b.extent := by
  induction h with
  | slnil => exact le_rfl
  | cons d _ ih => exact ih.trans (Nat.le_mul_of_pos_left _ (by omega))
  | cons_cons d _ ih => exact Nat.mul_le_mul le_rfl ih

theorem le_extent_of_mem {n : Nat} (h : n ∈ shape) : n ≤ shape.extent := by
  have hone := extent_le_of_sublist (List.singleton_sublist.mpr h)
  have hself : extent [n] = max n 1 := Nat.mul_one _
  omega

theorem getD_le_extent (shape : Shape) (k : Nat) : shape.getD k 0 ≤ shape.extent := by
  rw [List.getD_eq_getElem?_getD]
  cases h : shape[k]? with
  | none => exact Nat.zero_le _
  | some n => exact le_extent_of_mem (List.mem_of_getElem? h)

theorem extent_le_of_forall₂ (h : List.Forall₂ (fun m n => m ≤ max n 1) a b) :
    a.extent ≤ b.extent := by
  induction h with
  | nil => exact le_rfl
  | cons hd _ ih => exact Nat.mul_le_mul (by omega) ih

theorem extent_perm (h : a.Perm b) : a.extent = b.extent := by
  induction h with
  | nil => rfl
  | cons d _ ih => simp [extent, ih]
  | swap d e ds => exact Nat.mul_left_comm _ _ _
  | trans _ _ ih ih' => exact ih.trans ih'

/-- A count splits into those before, along and after a dimension. -/
theorem volume_split {k n : Nat} (h : shape[k]? = some n) :
    shape.volume = Shape.volume (shape.take k) * n * Shape.volume (shape.drop (k + 1)) := by
  obtain ⟨hk, rfl⟩ := List.getElem?_eq_some_iff.mp h
  conv_lhs => rw [← List.take_append_drop k shape, List.drop_eq_getElem_cons hk]
  rw [volume_append, volume, Nat.mul_assoc]

theorem volume_set {k m : Nat} (h : k < shape.length) :
    Shape.volume (shape.set k m) =
      Shape.volume (shape.take k) * m * Shape.volume (shape.drop (k + 1)) := by
  rw [volume_split (k := k) (n := m) (by simp [h]), List.take_set_of_le le_rfl,
    List.drop_set_of_lt (Nat.lt_succ_self k)]

theorem mul_le_extent {k m n : Nat} (hm : shape[k]? = some m) (hn : shape[k + 1]? = some n) :
    m * n ≤ shape.extent := by
  obtain ⟨hk, rfl⟩ := List.getElem?_eq_some_iff.mp hm
  obtain ⟨hk', rfl⟩ := List.getElem?_eq_some_iff.mp hn
  have hpair : [shape[k], shape[k + 1]].Sublist shape := by
    refine List.Sublist.trans ?_ (List.drop_sublist k shape)
    rw [List.drop_eq_getElem_cons hk, List.drop_eq_getElem_cons hk']
    exact ((List.nil_sublist _).cons_cons _).cons_cons _
  have hvolume := (volume_le_extent [shape[k], shape[k + 1]]).trans (extent_le_of_sublist hpair)
  simpa [volume] using hvolume

end Shape

namespace Index

variable {index : Index} {shape : Shape}

theorem mem_box {rs : List (Nat × Nat)} (h : index ∈ box rs) :
    List.Forall₂ (fun i r => r.1 ≤ i ∧ i < r.2) index rs := by
  induction rs generalizing index with
  | nil => simpa [box] using h
  | cons r rs ih =>
    obtain ⟨i, hi, h⟩ := List.mem_flatMap.mp h
    obtain ⟨rest, hrest, rfl⟩ := List.mem_map.mp h
    have hrange := List.mem_range'_1.mp hi
    exact .cons (by omega) (ih hrest)

theorem lt_of_mem_all (h : index ∈ all shape) : List.Forall₂ (· < ·) index shape := by
  have hbox := List.forall₂_map_right_iff.mp (mem_box h)
  exact hbox.imp fun _ _ => And.right

end Index

namespace Layout

open Outcome

variable {shape source target : Shape} {strides : List Nat} {index : Index}

theorem foldlM_count {shape : Shape} {n : Nat} (h : n * shape.extent < sizeLimit) :
    (shape.foldlM (fun n d => checkSize (n * d)) n : Outcome ε Nat) = .ok (n * shape.volume) := by
  induction shape generalizing n with
  | nil => simp [Shape.volume]
  | cons d ds ih =>
    have hstep : n * d * Shape.extent ds ≤ n * Shape.extent (d :: ds) := by
      rw [Nat.mul_assoc]
      exact Nat.mul_le_mul_left n (Nat.mul_le_mul_right _ (le_max_left d 1))
    have hcount := Nat.le_mul_of_pos_right (n * d) (Shape.extent_pos ds)
    rw [List.foldlM_cons, checkSize, if_pos (by omega), ok_bind, ih (by omega), Nat.mul_assoc]
    rfl

theorem checkedCount_eq_ok (h : shape.extent < sizeLimit) :
    (checkedCount shape : Outcome ε Nat) = .ok shape.volume := by
  have hcount : (checkedCount shape : Outcome ε Nat) = .ok (1 * shape.volume) :=
    foldlM_count (by rwa [Nat.one_mul])
  rwa [Nat.one_mul] at hcount

theorem foldrM_count (h : shape.extent < sizeLimit) :
    (shape.foldrM (fun d n => checkSize (n * d)) 1 : Outcome ε Nat) = .ok shape.volume := by
  induction shape with
  | nil => rfl
  | cons d ds ih =>
    have hall := Shape.volume_le_extent (d :: ds)
    have htail := Shape.extent_le_of_sublist (List.sublist_cons_self d ds)
    rw [List.foldrM_cons, ih (by omega), ok_bind, Nat.mul_comm, checkSize, if_pos (by
      exact hall.trans_lt h)]
    rfl

theorem checkedStrides_of_extent (h : shape.extent < sizeLimit) :
    (checkedStrides shape : Outcome ε (List Nat)) = .ok (Layout.strides shape) := by
  rw [checkedStrides, foldrM_count h]
  rfl

theorem checkedAll_of_extent (h : shape.extent < sizeLimit) :
    (Index.checkedAll shape : Outcome ε (List Index)) = .ok (Index.all shape) := by
  rw [Index.checkedAll, checkedCount_eq_ok h]
  rfl

def reach (strides : List Nat) (shape : Shape) : Nat :=
  ((strides.zip shape).map fun (s, n) => s * (n - 1)).sum

theorem offset_le_reach (h : List.Forall₂ (· < ·) index shape) :
    offset strides index ≤ reach strides shape := by
  induction h generalizing strides with
  | nil => cases strides <;> exact Nat.zero_le _
  | @cons i n index shape hi _ ih =>
    cases strides with
    | nil => exact Nat.zero_le _
    | cons s strides =>
      have hhead : s * i ≤ s * (n - 1) := Nat.mul_le_mul_left s (by omega)
      simpa [offset, reach] using Nat.add_le_add hhead (@ih strides)

theorem reach_strides (h : ∀ n ∈ shape, 0 < n) :
    reach (Layout.strides shape) shape + 1 = shape.volume := by
  induction shape with
  | nil => rfl
  | cons d ds ih =>
    rw [List.forall_mem_cons] at h
    have htail := ih h.2
    have hfirst : Shape.volume ds * (d - 1) + Shape.volume ds = d * Shape.volume ds := by
      rw [← Nat.mul_succ, Nat.succ_eq_add_one, Nat.sub_add_cancel h.1, Nat.mul_comm]
    simp only [reach, Layout.strides, List.zip_cons_cons, List.map_cons, List.sum_cons,
      Shape.volume] at htail ⊢
    omega

theorem reach_append {a b : Shape} {ss ts : List Nat} (h : ss.length = a.length) :
    reach (ss ++ ts) (a ++ b) = reach ss a + reach ts b := by
  rw [reach, List.zip_append h, List.map_append, List.sum_append]
  rfl

theorem reach_replicate_zero (n : Nat) (shape : Shape) : reach (List.replicate n 0) shape = 0 := by
  refine List.sum_eq_zero fun m hm => ?_
  obtain ⟨⟨s, d⟩, hp, rfl⟩ := List.mem_map.mp hm
  obtain rfl : s = 0 := List.eq_of_mem_replicate (List.of_mem_zip hp).1
  exact Nat.zero_mul _

/-- Repeated dimensions do not move the last position. -/
theorem reach_repeated (h : List.Forall₂ (fun s t => s = t ∨ s = 1) source target)
    (strides : List Nat) :
    reach (((source.zip strides).zip target).map fun ((size, stride), wanted) =>
      if size = 1 ∧ wanted ≠ 1 then 0 else stride) target ≤ reach strides source := by
  induction h generalizing strides with
  | nil => simp [reach]
  | @cons s t source target hsize _ ih =>
    cases strides with
    | nil => simp [reach]
    | cons stride strides =>
      have htail := ih strides
      have hhead : (if s = 1 ∧ t ≠ 1 then 0 else stride) * (t - 1) ≤ stride * (s - 1) := by
        split_ifs with hone
        · simp
        · obtain rfl : s = t := by omega
          exact le_rfl
      simpa [reach] using Nat.add_le_add hhead htail

theorem map_getD_range (xs : List Nat) :
    (List.range xs.length).map (fun d => xs.getD d 0) = xs := by
  refine List.ext_getElem (by simp) fun i _ hi => ?_
  rw [List.getElem_map, List.getElem_range, List.getD_eq_getElem?_getD, List.getElem?_eq_getElem hi,
    Option.getD_some]

/-- The order of the dimensions does not move the last position. -/
theorem reach_perm {perm : List Nat} (hperm : perm.Perm (List.range shape.length))
    (hlen : strides.length = shape.length) :
    reach (perm.map fun d => strides.getD d 0) (perm.map fun d => shape.getD d 0) =
      reach strides shape := by
  have hzip : ∀ ds : List Nat, reach (ds.map fun d => strides.getD d 0)
      (ds.map fun d => shape.getD d 0) =
        (ds.map fun d => strides.getD d 0 * (shape.getD d 0 - 1)).sum := by
    intro ds
    rw [reach, List.zip_map', List.map_map]
    rfl
  have hstrides := map_getD_range strides
  rw [hlen] at hstrides
  rw [hzip, (hperm.map _).sum_nat, ← hzip, hstrides, map_getD_range]

theorem length_strides (shape : Shape) : (Layout.strides shape).length = shape.length := by
  induction shape with
  | nil => rfl
  | cons d ds ih => simp [Layout.strides, ih]

theorem perm_of_isPermutation {rank : Nat} {perm : List Nat} (h : isPermutation rank perm = true) :
    perm.Perm (List.range rank) := by
  simp only [isPermutation, Bool.and_eq_true, beq_iff_eq, List.all_eq_true, List.mem_range] at h
  have hsub : List.range rank ⊆ perm := fun d hd =>
    List.count_pos_iff.mp (by rw [h.2 d (List.mem_range.mp hd)]; exact Nat.one_pos)
  have hsubperm := List.Nodup.subperm List.nodup_range hsub
  exact (hsubperm.perm_of_length_le (by simp [h.1])).symm

/-- Strides that reach no further than those of an array stay inside it. -/
theorem offset_lt_volume {steps : List Nat} (hpos : ∀ n ∈ source, 0 < n)
    (hreach : reach steps shape ≤ reach (Layout.strides source) source)
    (hindex : List.Forall₂ (· < ·) index shape) : offset steps index < source.volume := by
  have hoffset : offset steps index ≤ reach steps shape := offset_le_reach hindex
  have hlast := reach_strides hpos
  omega

/-- The sizes of a shape that broadcasts are those at the end of the larger shape, or one. -/
theorem canBroadcast_iff : canBroadcast source target = true ↔
    source.length ≤ target.length ∧
      List.Forall₂ (fun s t => s = t ∨ s = 1) source
      (target.drop (target.length - source.length)) := by
  rw [canBroadcast, Bool.and_eq_true, decide_eq_true_iff]
  refine and_congr_right fun hle => ?_
  have hlast : target.drop (target.length - source.length) =
      (target.reverse.take source.length).reverse := by
    rw [List.take_reverse, List.reverse_reverse]
  rw [hlast, ← List.forall₂_reverse_iff, List.reverse_reverse]
  have hlen : source.reverse.length = (target.reverse.take source.length).length := by simp [hle]
  have hzip : source.reverse.zip target.reverse =
      source.reverse.zip (target.reverse.take source.length) := by
    conv_lhs => rw [← List.take_append_drop source.length target.reverse]
    rw [← List.append_nil source.reverse, List.zip_append hlen]
    simp
  rw [hzip, List.forall₂_iff_zip]
  simp [hlen, List.all_eq_true]

theorem pos_of_lt (h : List.Forall₂ (· < ·) index shape) : ∀ n ∈ shape, 0 < n := by
  induction h with
  | nil => simp
  | cons hi _ ih => exact List.forall_mem_cons.mpr ⟨Nat.zero_lt_of_lt hi, ih⟩

theorem pos_of_canBroadcast (hcan : canBroadcast source target = true)
    (h : List.Forall₂ (· < ·) index target) : ∀ n ∈ source, 0 < n := by
  intro n hn
  obtain ⟨i, hi⟩ := List.getElem?_of_mem hn
  obtain ⟨m, hm, hsize⟩ := Related.get_left (canBroadcast_iff.mp hcan).2 hi
  have hpos := pos_of_lt h m (List.mem_of_mem_drop (List.mem_of_getElem? hm))
  omega

theorem broadcastStrides_eq_ok (hcan : canBroadcast source target = true)
    (h : source.extent < sizeLimit) : ∃ steps,
      (broadcastStrides source target : Outcome ε (List Nat)) = .ok steps ∧
        reach steps target ≤ reach (Layout.strides source) source := by
  obtain ⟨hle, hsizes⟩ := canBroadcast_iff.mp hcan
  rw [broadcastStrides, Outcome.demand, if_pos hcan, ok_bind, checkedStrides_of_extent h]
  refine ⟨_, rfl, ?_⟩
  have hpad := @reach_append (target.take (target.length - source.length))
    (target.drop (target.length - source.length))
    (List.replicate (target.length - source.length) 0)
    (((source.zip (Layout.strides source)).zip
      (target.drop (target.length - source.length))).map fun ((size, stride), wanted) =>
        if size = 1 ∧ wanted ≠ 1 then 0 else stride) (by simp)
  rw [List.take_append_drop, reach_replicate_zero, Nat.zero_add] at hpad
  exact hpad.trans_le (reach_repeated hsizes _)

theorem perm_permuted {perm : List Nat} (hperm : perm.Perm (List.range shape.length)) :
    (perm.map fun d => shape.getD d 0).Perm shape :=
  (hperm.map _).trans (.of_eq (map_getD_range shape))

end Layout

end TensorGraph
