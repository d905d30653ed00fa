import Mathlib.Algebra.Order.BigOperators.Group.List
import Mathlib.Data.List.Infix
import TensorGraph.Proofs.Positions

/-! Arrays of given elements. The elements have to be as many as the product of the sizes, which is
computed from the outermost dimension on, so that it has to fit in 64 bits before a size of zero is
met. -/

namespace TensorGraph

open Outcome

variable {ε α : Type} {shape : Shape}

theorem Shape.volume_eq_prod (shape : Shape) : shape.volume = shape.prod := by
  induction shape with
  | nil => rfl
  | cons d ds ih => rw [volume, ih, List.prod_cons]

/-- Whether all running products of the sizes, from the outermost one on, fit in 64 bits. -/
def Shape.Counted (shape : Shape) : Prop := ∀ front, front <+: shape → front.prod < sizeLimit

namespace Shape

instance (shape : Shape) : Decidable shape.Counted :=
  decidable_of_iff (∀ front ∈ shape.inits, front.prod < sizeLimit)
    (forall_congr' fun front => imp_congr_left (List.mem_inits front shape))

theorem Counted.of_prefix {front : Shape} (h : shape.Counted) (hfront : front <+: shape) :
    front.Counted :=
  fun _ hfirst => h _ (hfirst.trans hfront)

theorem Counted.prod_lt (h : shape.Counted) : shape.prod < sizeLimit := h shape List.prefix_rfl

/-- Smaller sizes have smaller running products. -/
theorem Counted.mono {other : Shape} (h : other.Counted) (hle : List.Forall₂ (· ≤ ·) shape other) :
    shape.Counted := by
  rintro front ⟨rest, rfl⟩
  have hfront : List.Forall₂ (· ≤ ·) front (other.take front.length) := by
    simpa using List.forall₂_take front.length hle
  exact (hfront.prod_le_prod').trans_lt (h _ (List.take_prefix _ _))

/-- The products fit where they do with every size of zero counted as one. -/
theorem counted_of_extent (h : shape.extent < sizeLimit) : shape.Counted := by
  intro front hfront
  rw [← volume_eq_prod]
  exact (volume_le_extent front).trans_lt ((extent_le_of_sublist hfront.sublist).trans_lt h)

end Shape

namespace Layout

theorem foldlM_count_eq {n : Nat} (hn : n < sizeLimit) :
    (shape.foldlM (fun n d => checkSize (n * d)) n : Outcome ε Nat) =
      if ∀ front ∈ shape.inits, n * front.prod < sizeLimit then .ok (n * shape.prod)
      else .fault := by
  induction shape generalizing n with
  | nil => simp [hn]
  | cons d ds ih =>
    have hinits : (∀ front ∈ (d :: ds).inits, n * front.prod < sizeLimit) ↔
        n * d < sizeLimit ∧ ∀ front ∈ ds.inits, n * d * front.prod < sizeLimit := by
      simp only [List.inits_cons, List.forall_mem_cons, List.forall_mem_map, List.prod_nil,
        Nat.mul_one, hn, true_and, List.prod_cons, ← Nat.mul_assoc]
      refine ⟨fun h => ⟨?_, h⟩, And.right⟩
      simpa using h [] (List.mem_inits _ _ |>.mpr List.nil_prefix)
    rw [List.foldlM_cons, checkSize]
    by_cases hd : n * d < sizeLimit
    · rw [if_pos hd, ok_bind, ih hd]
      simp only [hinits, hd, true_and, List.prod_cons, Nat.mul_assoc]
    · rw [if_neg hd, if_neg fun h => hd (hinits.mp h).1]
      rfl

theorem checkedCount_eq (shape : Shape) : (checkedCount shape : Outcome ε Nat) =
    if shape.Counted then .ok shape.prod else .fault := by
  rw [checkedCount, foldlM_count_eq (by decide)]
  exact if_congr (forall_congr' fun front => by rw [Nat.one_mul, List.mem_inits])
    (by rw [Nat.one_mul]) rfl

theorem checkedAll_eq (shape : Shape) : (Index.checkedAll shape : Outcome ε (List Index)) =
    if shape.Counted then .ok (Index.all shape) else .fault := by
  rw [Index.checkedAll, checkedCount_eq]
  split_ifs <;> rfl

theorem checkedStrides_eq (shape : Shape) : (checkedStrides shape : Outcome ε (List Nat)) =
    if Shape.Counted shape.reverse then .ok (strides shape) else .fault := by
  have hcount : (shape.foldrM (fun d n => checkSize (n * d)) 1 : Outcome ε Nat) =
      checkedCount shape.reverse := rfl
  rw [checkedStrides, hcount, checkedCount_eq]
  split_ifs <;> rfl

/-- An array is read as a larger one just if its strides can be computed. -/
theorem exists_broadcastStrides_iff {target : Shape} (hcan : canBroadcast shape target = true) :
    (∃ steps, (broadcastStrides shape target : Outcome ε (List Nat)) = .ok steps) ↔
      Shape.Counted shape.reverse := by
  rw [broadcastStrides, Outcome.demand, if_pos hcan, ok_bind, checkedStrides_eq]
  by_cases hcounted : Shape.Counted shape.reverse <;> simp [hcounted]

end Layout

namespace Tensor

theorem ofData?_eq (shape : Shape) (data : List α) : ofData? shape data =
    if shape.Counted then
      if h : data.length = shape.volume then .ok ⟨shape, data, h⟩
      else .error (.storage shape.prod data.length)
    else .fault := by
  rw [ofData?, Layout.checkedCount_eq]
  split_ifs <;> rfl

theorem ofData_eq_ok_of_counted {data : List α} (h : shape.Counted)
    (hlen : data.length = shape.volume) :
    (ofData shape data : Outcome ε (Tensor α)) = .ok ⟨shape, data, hlen⟩ := by
  rw [ofData, Layout.checkedCount_eq, if_pos h, ok_bind, dif_pos hlen]
  rfl

theorem exists_mapIndexedM {β : Type} {t : Tensor α} (h : t.shape.Counted)
    {f : Index → α → Outcome ε β}
    (hf : ∀ index a, List.Forall₂ (· < ·) index t.shape → ∃ b, f index a = .ok b) :
    ∃ u, t.mapIndexedM f = .ok u := by
  have hreads : ∀ p ∈ (Index.all t.shape).zip t.data, ∃ b, f p.1 p.2 = .ok b ∧ True := fun p hp =>
    (hf p.1 p.2 (Index.lt_of_mem_all (List.of_mem_zip hp).1)).imp fun _ hb => ⟨hb, trivial⟩
  obtain ⟨bs, hbs, -⟩ := exists_mapM hreads
  have hlen : bs.length = t.shape.volume := by
    rw [← (mapM_eq_ok.mp hbs).length_eq, List.length_zip, Index.length_all, t.length_data,
      Nat.min_self]
  exact ⟨_, bind_eq_ok.mpr ⟨bs, hbs, ofData_eq_ok_of_counted h hlen⟩⟩

theorem reshape_eq (t : Tensor α) (shape : Shape) : t.reshape shape =
    if shape.Counted then
      if h : t.data.length = shape.volume then .ok ⟨shape, t.data, h⟩ else .error .reshape
    else .fault := by
  rw [reshape, Layout.checkedCount_eq]
  split_ifs <;> rfl

theorem ofData?_answers (shape : Shape) (data : List α) :
    ((∃ u, ofData? shape data = .ok u ∧ u.shape = shape ∧ u.data = data) ↔
      shape.Counted ∧ shape.prod = data.length) ∧
    (ofData? shape data = .error (.storage shape.prod data.length) ↔
      shape.Counted ∧ shape.prod ≠ data.length) ∧
    ((ofData? shape data).NoFault ↔ shape.Counted) := by
  rw [ofData?_eq]
  by_cases hcounted : shape.Counted
  · by_cases hlength : shape.prod = data.length
    · have hvolume : data.length = shape.volume := by rw [Shape.volume_eq_prod, hlength]
      simp [hcounted, hlength, hvolume, NoFault]
    · have hvolume : data.length ≠ shape.volume := by rwa [Shape.volume_eq_prod, ne_comm]
      simp [hcounted, hlength, hvolume, NoFault]
  · simp [hcounted, NoFault]

theorem reshape_answers (t : Tensor α) (shape : Shape) :
    ((∃ u, foldUntil reshape t [shape] = (u, .ok ()) ∧ u.shape = shape ∧ u.data = t.data) ↔
      shape.Counted ∧ shape.prod = t.count) ∧
    (foldUntil reshape t [shape] = (t, .error .reshape) ↔ shape.Counted ∧ shape.prod ≠ t.count) ∧
    ((t.reshape shape).NoFault ↔ shape.Counted) := by
  rw [foldUntil, reshape_eq, count]
  by_cases hcounted : shape.Counted
  · by_cases hlength : shape.prod = t.data.length
    · have hvolume : t.data.length = shape.volume := by rw [Shape.volume_eq_prod, hlength]
      simp [hcounted, hlength, hvolume, foldUntil, NoFault]
    · have hvolume : t.data.length ≠ shape.volume := by rwa [Shape.volume_eq_prod, ne_comm]
      simp [hcounted, hlength, hvolume, NoFault]
  · simp [hcounted, NoFault]

/-- Elements are taken under a shape just if they are as many as its product and its running
products fit in 64 bits; a wrong number is refused with both numbers. An array is reshaped under
the same conditions, and is what it was if this is refused. -/
theorem lengths_iff (shape : Shape) (data : List α) (t : Tensor α) :
    ((∃ u, ofData? shape data = .ok u ∧ u.shape = shape ∧ u.data = data) ↔
      shape.Counted ∧ shape.prod = data.length) ∧
    (ofData? shape data = .error (.storage shape.prod data.length) ↔
      shape.Counted ∧ shape.prod ≠ data.length) ∧
    ((ofData? shape data).NoFault ↔ shape.Counted) ∧
    ((∃ u, foldUntil reshape t [shape] = (u, .ok ()) ∧ u.shape = shape ∧ u.data = t.data) ↔
      shape.Counted ∧ shape.prod = t.count) ∧
    (foldUntil reshape t [shape] = (t, .error .reshape) ↔ shape.Counted ∧ shape.prod ≠ t.count) ∧
    ((t.reshape shape).NoFault ↔ shape.Counted) := by
  obtain ⟨htaken, hrefused, hfaulted⟩ := ofData?_answers shape data
  exact ⟨htaken, hrefused, hfaulted, reshape_answers t shape⟩

/-- The running product overflows before the size of zero that makes it the number of the
elements. -/
theorem lengths_fault_late_zero :
    [2 ^ 32, 2 ^ 32, 0].prod = ([] : List Int64).length ∧
      ofData? [2 ^ 32, 2 ^ 32, 0] ([] : List Int64) = .fault ∧
      (⟨[0], [], rfl⟩ : Tensor Int64).reshape [2 ^ 32, 2 ^ 32, 0] = .fault := by
  decide

end Tensor

end TensorGraph
