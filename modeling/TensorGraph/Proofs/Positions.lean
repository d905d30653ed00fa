import TensorGraph.Proofs.Safety.Tensors

/-! Positions of arrays in row-major order. Each position has a place of its own in this order,
which is its distance from the first element, so that an element is known by its position. -/

namespace TensorGraph

open Outcome

variable {ε α β : Type} {index : Index} {shape : Shape}

theorem getElem?_flatMap_range' {f : Nat → List α} {m : Nat} (hf : ∀ i, (f i).length = m)
    {n i : Nat} (hi : i < n) (start : Nat) {j : Nat} (hj : j < m) :
    ((List.range' start n).flatMap f)[m * i + j]? = (f (start + i))[j]? := by
  induction n generalizing i start with
  | zero => cases hi
  | succ n ih =>
    rw [List.range'_succ, List.flatMap_cons]
    cases i with
    | zero =>
      rw [Nat.mul_zero, Nat.zero_add, List.getElem?_append_left (hf start ▸ hj), Nat.add_zero]
    | succ i =>
      have hfar : m * (i + 1) + j = (f start).length + (m * i + j) := by
        rw [hf, Nat.mul_succ]
        omega
      have hrest := ih (Nat.lt_of_succ_lt_succ hi) (start + 1)
      rw [hfar, List.getElem?_append_right (Nat.le_add_right _ _), Nat.add_sub_cancel_left, hrest,
        Nat.succ_add_eq_add_succ]

theorem Layout.inBounds_iff : inBounds index shape = true ↔ List.Forall₂ (· < ·) index shape := by
  induction index generalizing shape with
  | nil => cases shape <;> simp [inBounds]
  | cons i is ih => cases shape <;> simp [inBounds, ih]

namespace Index

/-- A position stands in the row-major order at its distance from the first one. -/
theorem getElem?_all (h : List.Forall₂ (· < ·) index shape) :
    (all shape)[Layout.offset (Layout.strides shape) index]? = some index := by
  induction h with
  | nil => rfl
  | @cons i d is ds hi hrest ih =>
    have hlen : ∀ j, ((all ds).map (j :: ·)).length = Shape.volume ds := fun j => by simp
    have hlt : Layout.offset (Layout.strides ds) is < Shape.volume ds := by
      rw [← length_all]
      exact (List.getElem?_eq_some_iff.mp ih).1
    have hall : all (d :: ds) = (List.range' 0 d).flatMap fun j => (all ds).map (j :: ·) := rfl
    rw [hall, Layout.strides, Layout.offset, getElem?_flatMap_range' hlen hi 0 hlt, Nat.zero_add,
      List.getElem?_map, ih]
    rfl

theorem mem_all_iff : index ∈ all shape ↔ List.Forall₂ (· < ·) index shape :=
  ⟨lt_of_mem_all, fun h => List.mem_of_getElem? (getElem?_all h)⟩

end Index

theorem Layout.offset_strides_lt (h : List.Forall₂ (· < ·) index shape) :
    offset (strides shape) index < shape.volume := by
  rw [← Index.length_all]
  exact (List.getElem?_eq_some_iff.mp (Index.getElem?_all h)).1

theorem Layout.offset_injective {other : Index} (h : List.Forall₂ (· < ·) index shape)
    (h' : List.Forall₂ (· < ·) other shape)
    (heq : offset (strides shape) index = offset (strides shape) other) : index = other := by
  have hindex := Index.getElem?_all h
  rw [heq, Index.getElem?_all h'] at hindex
  exact (Option.some.inj hindex).symm

namespace Layout

theorem offset_append {ss ts : List Nat} {is js : Index} (h : ss.length = is.length) :
    offset (ss ++ ts) (is ++ js) = offset ss is + offset ts js := by
  induction ss generalizing is with
  | nil =>
    cases is with
    | nil => exact (Nat.zero_add _).symm
    | cons i is => cases h
  | cons s ss ih =>
    cases is with
    | nil => cases h
    | cons i is =>
      rw [List.cons_append, List.cons_append, offset, offset, ih (Nat.succ.inj h), Nat.add_assoc]

theorem offset_replicate_zero (n : Nat) (index : Index) :
    offset (List.replicate n 0) index = 0 := by
  induction n generalizing index with
  | zero => rfl
  | succ n ih => cases index <;> simp [List.replicate_succ, offset, ih]

/-- The position in a source that is read at a position of a larger shape: along a dimension of
size one always the only place. -/
def sourceIndex (source : Shape) (index : Index) : Index :=
  List.zipWith (fun size i => if size = 1 then 0 else i) source
    (index.drop (index.length - source.length))

theorem offset_repeated {source target : Shape}
    (h : List.Forall₂ (fun s t => s = t ∨ s = 1) source target)
    (hindex : List.Forall₂ (· < ·) index target) :
    offset (((source.zip (strides source)).zip target).map fun ((size, stride), wanted) =>
        if size = 1 ∧ wanted ≠ 1 then 0 else stride) index =
      offset (strides source)
      (List.zipWith (fun size i => if size = 1 then 0 else i) source index) := by
  induction h generalizing index with
  | nil => cases index <;> rfl
  | @cons s t source target hsize _ ih =>
    cases hindex with
    | @cons i _ is _ hi his =>
      have hhead : (if s = 1 ∧ t ≠ 1 then 0 else Shape.volume source) * i =
          Shape.volume source * if s = 1 then 0 else i := by
        by_cases hone : s = 1
        · by_cases hwide : t = 1
          · simp [hone, hwide, show i = 0 by omega]
          · simp [hone, hwide]
        · simp [hone]
      simpa [strides, offset] using congrArg₂ (· + ·) hhead (ih his)

/-- The strides that read a source as a larger shape lead to the position in the source. -/
theorem offset_of_broadcastStrides {source target : Shape} {steps : List Nat}
    (h : (broadcastStrides source target : Outcome ε (List Nat)) = .ok steps)
    (hindex : List.Forall₂ (· < ·) index target) :
    offset steps index = offset (strides source) (sourceIndex source index) := by
  obtain ⟨_, hcan, h⟩ := bind_eq_ok.mp h
  obtain ⟨inner, hinner, h⟩ := bind_eq_ok.mp h
  obtain ⟨-, hsizes⟩ := canBroadcast_iff.mp (demand_eq_ok.mp hcan)
  cases checkedStrides_eq_ok hinner
  cases ok.inj h
  have hfront : (List.replicate (target.length - source.length) 0).length =
      (index.take (target.length - source.length)).length := by
    rw [List.length_replicate, List.length_take, hindex.length_eq, Nat.min_eq_left (Nat.sub_le _ _)]
  rw [sourceIndex, hindex.length_eq]
  conv_lhs => rw [← List.take_append_drop (target.length - source.length) index]
  rw [offset_append hfront, offset_replicate_zero, Nat.zero_add]
  exact offset_repeated hsizes (List.forall₂_drop _ hindex)

theorem zipWith_lt {source target : Shape}
    (h : List.Forall₂ (fun s t => s = t ∨ s = 1) source target)
    (hindex : List.Forall₂ (· < ·) index target) : List.Forall₂ (· < ·)
      (List.zipWith (fun size i => if size = 1 then 0 else i) source index) source := by
  induction h generalizing index with
  | nil => exact .nil
  | @cons s t source target hsize _ ih =>
    cases hindex with
    | @cons i _ is _ hi his =>
      refine .cons ?_ (ih his)
      dsimp only
      split_ifs <;> omega

theorem sourceIndex_lt {source target : Shape} (hcan : canBroadcast source target = true)
    (hindex : List.Forall₂ (· < ·) index target) :
    List.Forall₂ (· < ·) (sourceIndex source index) source := by
  rw [sourceIndex, hindex.length_eq]
  exact zipWith_lt (canBroadcast_iff.mp hcan).2 (List.forall₂_drop _ hindex)

theorem extent_le_of_canBroadcast {source target : Shape}
    (hcan : canBroadcast source target = true) :
    source.extent ≤ target.extent := by
  obtain ⟨-, hsizes⟩ := canBroadcast_iff.mp hcan
  have hsub := List.drop_sublist (target.length - source.length) target
  exact (Shape.extent_le_of_forall₂ (hsizes.imp fun _ _ h => by omega)).trans
    (Shape.extent_le_of_sublist hsub)

end Layout

namespace Tensor

theorem get?_of_lt {t : Tensor α} (h : List.Forall₂ (· < ·) index t.shape) :
    t.get? index = t.data[Layout.offset (Layout.strides t.shape) index]? := by
  rw [get?, offset?, if_pos (Layout.inBounds_iff.mpr h)]
  rfl

theorem get?_eq_none {t : Tensor α} (h : ¬List.Forall₂ (· < ·) index t.shape) :
    t.get? index = none := by
  rw [get?, offset?, if_neg (mt Layout.inBounds_iff.mp h)]
  rfl

theorem isSome_get?_iff {t : Tensor α} :
    (t.get? index).isSome ↔ List.Forall₂ (· < ·) index t.shape := by
  by_cases h : List.Forall₂ (· < ·) index t.shape
  · have hlt := Layout.offset_strides_lt h
    rw [← t.length_data] at hlt
    rw [get?_of_lt h, List.getElem?_eq_getElem hlt]
    exact iff_of_true rfl h
  · rw [get?_eq_none h]
    exact iff_of_false (by simp) h

/-- The element at a position of a larger shape, to which the tensor broadcasts. -/
def readAt? (t : Tensor α) (index : Index) : Option α := t.get? (Layout.sourceIndex t.shape index)

/-- A tensor that broadcasts is read at every position of the larger shape. -/
theorem exists_broadcastElements {t : Tensor α} {target : Shape}
    (hcan : Layout.canBroadcast t.shape target = true) (h : target.extent < sizeLimit) :
    ∃ xs, (t.broadcastElements target : Outcome ε (List α)) = .ok xs ∧
      List.Forall₂ (fun index a => t.readAt? index = some a) (Index.all target) xs := by
  have hsource := (Layout.extent_le_of_canBroadcast hcan).trans_lt h
  obtain ⟨steps, hsteps, -⟩ := Layout.broadcastStrides_eq_ok (ε := ε) hcan hsource
  rw [broadcastElements, hsteps, ok_bind, Layout.checkedAll_of_extent h, ok_bind]
  refine exists_mapM fun index hmem => ?_
  have hindex := Index.lt_of_mem_all hmem
  have hread : t.readAt? index = t.data[Layout.offset steps index]? := by
    rw [readAt?, get?_of_lt (Layout.sourceIndex_lt hcan hindex),
      Layout.offset_of_broadcastStrides hsteps hindex]
  obtain ⟨a, ha⟩ := Option.isSome_iff_exists.mp
    (isSome_get?_iff.mpr (Layout.sourceIndex_lt hcan hindex))
  refine ⟨a, ?_, ha⟩
  rw [← hread, readAt?, ha]
  rfl

end Tensor

end TensorGraph
