import Mathlib.Data.List.Lex
import TensorGraph.Proofs.Kernels.Chunks
import TensorGraph.Proofs.Lengths

/-! Walks over boxes of positions. Stepping the last coordinate, with a carry into the one before
it, goes through the positions in lexicographic order, each of them once. A walk over a whole array
meets the elements in the order in which they are stored. -/

namespace TensorGraph

open Outcome

variable {ε α : Type} {shape : Shape} {index : Index} {k n : Nat}

/-- Sizes without a zero can be multiplied up from either end if their product fits in 64 bits. -/
theorem Shape.counted_of_pos (hpos : ∀ n ∈ shape, 0 < n) (h : shape.prod < sizeLimit) :
    shape.Counted ∧ Shape.Counted shape.reverse := by
  have hvolume : shape.extent < sizeLimit := by rwa [extent_eq_volume hpos, volume_eq_prod]
  have hreverse := extent_perm (List.reverse_perm shape)
  exact ⟨counted_of_extent hvolume, counted_of_extent (hreverse ▸ hvolume)⟩

namespace Layout

theorem foldlM_offset {steps : List Nat} (h : n + offset steps index < sizeLimit) :
    ((steps.zip index).foldlM (fun n (s, i) => do checkSize (n + (← checkSize (s * i)))) n :
      Outcome ε Nat) = .ok (n + offset steps index) := by
  induction steps generalizing index n with
  | nil => simp [offset]
  | cons s steps ih =>
    cases index with
    | nil => simp [offset]
    | cons i is =>
      -- no product or sum on the way is greater than the whole distance
      rw [offset, ← Nat.add_assoc] at h
      have hproduct : (checkSize (s * i) : Outcome ε Nat) = .ok (s * i) :=
        checkSize_eq_ok.mpr ⟨by omega, rfl⟩
      have hsum : (checkSize (n + s * i) : Outcome ε Nat) = .ok (n + s * i) :=
        checkSize_eq_ok.mpr ⟨by omega, rfl⟩
      simp only [List.zip_cons_cons, List.foldlM_cons, hproduct, hsum, ok_bind]
      rw [ih h, offset, Nat.add_assoc]

theorem checkedOffset_strides (hindex : List.Forall₂ (· < ·) index shape) (h : shape.Counted) :
    (checkedStrides shape : Outcome ε (List Nat)) = .ok (strides shape) ∧
      (checkedOffset (strides shape) index : Outcome ε Nat) =
      .ok (offset (strides shape) index) := by
  have hreverse := (Shape.counted_of_pos (pos_of_lt hindex) h.prod_lt).2
  have hoffset : 0 + offset (strides shape) index < sizeLimit := by
    have hinside := offset_strides_lt hindex
    have hvolume := h.prod_lt
    rw [← Shape.volume_eq_prod] at hvolume
    omega
  constructor
  · rw [checkedStrides_eq, if_pos hreverse]
  · rw [checkedOffset, foldlM_offset hoffset, Nat.zero_add]

/-- The distance of a position is its place in the row-major order. -/
theorem offset_of_place (h : (Index.all shape)[k]? = some index) :
    offset (strides shape) index = k := by
  have hk := (List.getElem?_eq_some_iff.mp h).1
  rw [Index.length_all] at hk
  have hplace : ((Index.all shape).map (offset (strides shape)))[k]? =
      some (offset (strides shape) index) := by
    rw [List.getElem?_map, h, Option.map_some]
  rw [map_offset_all, List.getElem?_range hk] at hplace
  exact (Option.some.inj hplace).symm

theorem not_inside_iff : ¬List.Forall₂ (· < ·) index shape ↔ index.length ≠ shape.length ∨
    ∃ d i size : Nat, index[d]? = some i ∧ shape[d]? = some size ∧ size ≤ i := by
  rw [List.forall₂_iff_get, not_and_or]
  refine or_congr_right ⟨fun h => ?_, ?_⟩
  · push Not at h
    obtain ⟨d, hi, hsize, hle⟩ := h
    exact ⟨d, _, _, List.getElem?_eq_getElem hi, List.getElem?_eq_getElem hsize, hle⟩
  · rintro ⟨d, i, size, hi, hsize, hle⟩ hinside
    obtain ⟨hd, rfl⟩ := List.getElem?_eq_some_iff.mp hi
    obtain ⟨hd', rfl⟩ := List.getElem?_eq_some_iff.mp hsize
    exact absurd (hinside d hd hd') (not_lt.mpr hle)

end Layout

namespace Tensor

variable {t : Tensor α}

theorem get?_eq_none_iff : t.get? index = none ↔
    index.length ≠ t.rank ∨ ∃ d i size : Nat, index[d]? = some i ∧ t.shape[d]? = some size ∧
      size ≤ i := by
  rw [← Option.not_isSome_iff_eq_none, isSome_get?_iff]
  exact Layout.not_inside_iff

theorem get?_of_place (h : (Index.all t.shape)[k]? = some index) :
    ∃ hk : k < t.data.length, t.get? index = some t.data[k] := by
  have hk := (List.getElem?_eq_some_iff.mp h).1
  rw [Index.length_all, ← t.length_data] at hk
  have hinside := Index.mem_all_iff.mp (List.mem_of_getElem? h)
  refine ⟨hk, ?_⟩
  rw [get?_of_lt hinside, Layout.offset_of_place h, List.getElem?_eq_getElem hk]

end Tensor

namespace Index

variable {rs : List (Nat × Nat)}

/-- The position that stands at a place of a box with one more dimension in front. -/
theorem getElem?_box_cons (lo hi : Nat) {i k : Nat} (hrow : i < hi - lo)
    (hk : k < (box rs).length) :
    (box ((lo, hi) :: rs))[(box rs).length * i + k]? = (box rs)[k]?.map ((lo + i) :: ·) := by
  have hlen : ∀ j, ((box rs).map (j :: ·)).length = (box rs).length := fun j => by simp
  rw [box, getElem?_flatMap_range' hlen hrow lo hk, List.getElem?_map]

theorem length_box_cons (lo hi : Nat) :
    (box ((lo, hi) :: rs)).length = (hi - lo) * (box rs).length := by
  simp only [length_box, List.map_cons, Shape.volume]

theorem eq_first_of_box (h : (box rs)[0]? = some index) : index = rs.map Prod.fst := by
  induction rs generalizing index with
  | nil => exact (Option.some.inj h).symm
  | cons r rs ih =>
    obtain ⟨lo, hi⟩ := r
    have hpos := (List.getElem?_eq_some_iff.mp h).1
    rw [length_box_cons] at hpos
    have hrow : 0 < hi - lo := Nat.pos_of_mul_pos_right hpos
    have hrest : 0 < (box rs).length := Nat.pos_of_mul_pos_left hpos
    have hstart := getElem?_box_cons lo hi hrow hrest
    rw [Nat.mul_zero, Nat.zero_add, h] at hstart
    obtain ⟨rest, hrest, hindex⟩ := Option.map_eq_some_iff.mp hstart.symm
    rw [← hindex, ih hrest]
    rfl

/-- Stepping a position gives the next one of its box, or the first one with a carry after the
last. -/
theorem advance_box (h : (box rs)[k]? = some index) :
    advance rs index = match (box rs)[k + 1]? with
      | some next => (next, false)
      | none => (rs.map Prod.fst, true) := by
  induction rs generalizing index k with
  | nil =>
    obtain ⟨hk, rfl⟩ := List.getElem?_eq_some_iff.mp h
    obtain rfl : k = 0 := Nat.lt_one_iff.mp hk
    rfl
  | cons r rs ih =>
    obtain ⟨lo, hi⟩ := r
    have hlt := (List.getElem?_eq_some_iff.mp h).1
    rw [length_box_cons, Nat.mul_comm] at hlt
    -- the place in the whole box is a place `j` in the `i`-th copy of the smaller one
    obtain ⟨i, j, hj, rfl⟩ : ∃ i j, j < (box rs).length ∧ k = (box rs).length * i + j :=
      ⟨_, _, Nat.mod_lt k (Nat.pos_of_mul_pos_right (Nat.zero_lt_of_lt hlt)),
        (Nat.div_add_mod k _).symm⟩
    have hi' : i < hi - lo := Nat.lt_of_mul_lt_mul_left ((Nat.le_add_right _ j).trans_lt hlt)
    rw [getElem?_box_cons lo hi hi' hj] at h
    obtain ⟨rest, hrest, rfl⟩ := Option.map_eq_some_iff.mp h
    rw [advance, ih hrest, Nat.add_assoc _ j 1]
    by_cases hnext : j + 1 < (box rs).length
    · rw [getElem?_box_cons lo hi hi' hnext, List.getElem?_eq_getElem hnext]
      rfl
    · have hlast : (box rs).length * i + (j + 1) = (box rs).length * (i + 1) + 0 := by
        rw [Nat.mul_succ]
        omega
      rw [List.getElem?_eq_none (not_lt.mp hnext), hlast]
      by_cases hrow : i + 1 < hi - lo
      · have hfirst := List.getElem?_eq_getElem (Nat.zero_lt_of_lt hj)
        rw [getElem?_box_cons lo hi hrow (Nat.zero_lt_of_lt hj), hfirst, eq_first_of_box hfirst]
        simp only [if_true, if_pos (show lo + i + 1 < hi by omega)]
        rfl
      · have hend : (box ((lo, hi) :: rs)).length ≤ (box rs).length * (i + 1) + 0 := by
          rw [length_box_cons, Nat.mul_comm, Nat.add_zero]
          exact Nat.mul_le_mul_left _ (not_lt.mp hrow)
        rw [List.getElem?_eq_none hend]
        simp only [if_true, if_neg (show ¬lo + i + 1 < hi by omega)]
        rfl

/-- Positions are listed in lexicographic order. -/
theorem pairwise_box (rs : List (Nat × Nat)) : (box rs).Pairwise (· < ·) := by
  induction rs with
  | nil => exact List.pairwise_singleton _ _
  | cons r rs ih =>
    rw [box, List.pairwise_flatMap]
    constructor
    · intro i _
      rw [List.pairwise_map]
      exact ih.imp fun h => List.cons_lt_cons_iff.mpr (.inr ⟨rfl, h⟩)
    · have hrange : (List.range' r.1 (r.2 - r.1)).Pairwise (· < ·) := List.pairwise_lt_range'
      refine hrange.imp fun {i j} hij a ha b hb => ?_
      obtain ⟨a, -, rfl⟩ := List.mem_map.mp ha
      obtain ⟨b, -, rfl⟩ := List.mem_map.mp hb
      exact List.cons_lt_cons_iff.mpr (.inl hij)

theorem mem_box_iff :
    index ∈ box rs ↔ List.Forall₂ (fun i r => r.1 ≤ i ∧ i < r.2) index rs := by
  refine ⟨mem_box, fun h => ?_⟩
  induction h with
  | nil => exact List.mem_singleton_self _
  | @cons i r is rs hi hrest ih =>
    refine List.mem_flatMap.mpr ⟨i, List.mem_range'_1.mpr ?_, List.mem_map_of_mem ih⟩
    omega

theorem nodup_box (rs : List (Nat × Nat)) : (box rs).Nodup :=
  (pairwise_box rs).imp fun h => ne_of_lt h

namespace Walk

variable {w : Walk}

/-- The walk that is left from the `k`-th position of a box on. -/
def rest (rs : List (Nat × Nat)) (k : Nat) : Walk := ⟨rs, (box rs)[k]?, (box rs).length - k⟩

theorem ofRanges_eq (rs : List (Nat × Nat)) : (ofRanges rs : Outcome ε Walk) =
    if Shape.Counted (rs.map fun r => r.2 - r.1) then .ok (rest rs 0) else .fault := by
  have hcount : (rs.map fun r => r.2 - r.1).prod = (box rs).length := by
    rw [length_box, Shape.volume_eq_prod]
  rw [ofRanges, Layout.checkedCount_eq, hcount]
  split_ifs
  · rw [ok_bind, rest, Nat.sub_zero]
    by_cases hpos : (box rs).length > 0
    · have hfirst := List.getElem?_eq_getElem hpos
      rw [if_pos hpos, hfirst, eq_first_of_box hfirst]
      rfl
    · rw [if_neg hpos, List.getElem?_eq_none (by omega)]
      rfl
  · rfl

theorem ofRanges_eq_ok (h : (ofRanges rs : Outcome ε Walk) = .ok w) : w = rest rs 0 := by
  rw [ofRanges_eq] at h
  split_ifs at h
  exact (ok.inj h).symm

theorem step_rest (h : (box rs)[k]? = some index) :
    (rest rs k).step = some (index, rest rs (k + 1)) := by
  have hk := (List.getElem?_eq_some_iff.mp h).1
  rw [step, rest, h, Option.map_some]
  dsimp only
  rw [advance_box h, rest, Nat.sub_sub]
  by_cases hlast : (box rs).length - k > 1
  · have hnext := List.getElem?_eq_getElem (show k + 1 < (box rs).length by omega)
    rw [if_pos hlast, hnext]
  · rw [if_neg hlast, List.getElem?_eq_none (by omega)]

theorem takeFrom_rest (k : Nat) :
    takeFrom ((box rs).length - k) (rest rs k) = (box rs).drop k := by
  generalize hfuel : (box rs).length - k = fuel
  induction fuel generalizing k with
  | zero => exact (List.drop_eq_nil_of_le (by omega)).symm
  | succ fuel ih =>
    have hk : k < (box rs).length := by omega
    rw [takeFrom, step_rest (List.getElem?_eq_getElem hk), List.drop_eq_getElem_cons hk]
    exact congrArg _ (ih (k + 1) (by omega))

/-- A walk lists the positions of its box in row-major order. -/
theorem toList_ofRanges (h : (ofRanges rs : Outcome ε Walk) = .ok w) : w.toList = box rs := by
  rw [ofRanges_eq_ok h]
  exact takeFrom_rest 0

theorem lengths_ofShape (shape : Shape) :
    (shape.map ((0, ·) : Nat → Nat × Nat)).map (fun r => r.2 - r.1) = shape := by
  simp [Function.comp_def]

/-- The positions of an array are walked over where they can be counted. -/
theorem exists_ofRanges (h : shape.Counted) :
    ∃ w, (ofRanges (shape.map (0, ·)) : Outcome ε Walk) = .ok w ∧ w.toList = all shape := by
  have hw : (ofRanges (shape.map (0, ·)) : Outcome ε Walk) = .ok (rest (shape.map (0, ·)) 0) := by
    rw [ofRanges_eq, lengths_ofShape, if_pos h]
  exact ⟨_, hw, toList_ofRanges hw⟩

theorem call_rest (rs : List (Nat × Nat)) (k : Nat) :
    (rest rs k).call = (rest rs (k + 1), (box rs)[k]?) := by
  by_cases hk : k < (box rs).length
  · have h := List.getElem?_eq_getElem hk
    rw [call, step_rest h, h]
  · -- behind the last position a walk stays what it is
    have hend : (box rs)[k]? = none := List.getElem?_eq_none (by omega)
    have hstay : rest rs (k + 1) = rest rs k := by
      rw [rest, rest, hend, List.getElem?_eq_none (by omega)]
      congr 1
      omega
    have hstep : (rest rs k).step = none := by simp [step, rest, hend]
    rw [call, hstep, hstay, hend]

theorem calls_rest (rs : List (Nat × Nat)) (n : Nat) : (rest rs 0).calls n = rest rs n := by
  induction n with
  | zero => rfl
  | succ n ih => rw [calls, ih, call_rest]

theorem calls_ofRanges (h : (ofRanges rs : Outcome ε Walk) = .ok w) (n : Nat) :
    (w.calls n).call.2 = (box rs)[n]? ∧ (w.calls n).remaining = ((box rs).drop n).length := by
  rw [ofRanges_eq_ok h, calls_rest, call_rest, List.length_drop]
  exact ⟨rfl, rfl⟩

theorem ofRanges_eq_fault_iff : (ofRanges rs : Outcome ε Walk) = .fault ↔
    ¬Shape.Counted (rs.map fun r => r.2 - r.1) := by
  by_cases hcounted : Shape.Counted (rs.map fun r => r.2 - r.1) <;> simp [ofRanges_eq, hcounted]

theorem exists_ofRanges_of_lt (hprod : (rs.map fun r => r.2 - r.1).prod < sizeLimit)
    (h : ∀ r ∈ rs, r.1 < r.2) : ∃ w, (ofRanges rs : Outcome ε Walk) = .ok w := by
  have hpos : ∀ n ∈ rs.map fun r => r.2 - r.1, 0 < n := by
    intro n hn
    obtain ⟨r, hr, rfl⟩ := List.mem_map.mp hn
    exact Nat.sub_pos_of_lt (h r hr)
  rw [ofRanges_eq, if_pos (Shape.counted_of_pos hpos hprod).1]
  exact ⟨_, rfl⟩

/-- A walk over an array comes to each position at its distance from the first one. -/
theorem distance_of_calls (h : (ofRanges (shape.map (0, ·)) : Outcome ε Walk) = .ok w)
    (hindex : (w.calls k).call.2 = some index) :
    (∃ steps, (Layout.checkedStrides shape : Outcome ε (List Nat)) = .ok steps ∧
      (Layout.checkedOffset steps index : Outcome ε Nat) = .ok k) ∧
    ∀ t : Tensor α, t.shape = shape → ∃ hk : k < t.data.length, t.get? index = some t.data[k] := by
  have hcounted : shape.Counted := by
    by_contra hcounted
    rw [ofRanges_eq, lengths_ofShape, if_neg hcounted] at h
    cases h
  have hplace : (all shape)[k]? = some index := by
    rw [← hindex, (calls_ofRanges h k).1]
    rfl
  have hinside := mem_all_iff.mp (List.mem_of_getElem? hplace)
  obtain ⟨hsteps, hoffset⟩ := Layout.checkedOffset_strides (ε := ε) hinside hcounted
  rw [Layout.offset_of_place hplace] at hoffset
  constructor
  · exact ⟨_, hsteps, hoffset⟩
  · rintro t rfl
    exact Tensor.get?_of_place hplace

/-- A walk over a box faults just if the running products of the lengths of its ranges, from the
outermost one on, do not fit in 64 bits; if the whole product does, one of the ranges is empty
then. The calls on a walk give each position of the box once, in increasing lexicographic order,
and nothing from then on, and it is always known how many are left. Over an array, the position
that comes after `k` others is at the distance `k` and has the element that is stored at the place
`k`. No element is read just at positions with another number of coordinates or one that is out of
bounds. -/
theorem visits_rows (ranges : List (Nat × Nat)) (shape : Shape) :
    ((ofRanges ranges : Outcome ε Walk) = .fault ↔ ¬Shape.Counted (ranges.map fun r => r.2 - r.1)) ∧
    ((ranges.map fun r => r.2 - r.1).prod < sizeLimit → (∀ r ∈ ranges, r.1 < r.2) →
      ∃ w, (ofRanges ranges : Outcome ε Walk) = .ok w) ∧
    (Shape.Counted (ranges.map fun r => r.2 - r.1) → ∃ w, (ofRanges ranges : Outcome ε Walk) =
      .ok w ∧
      ∃ items : List Index,
        (∀ index, index ∈ items ↔ List.Forall₂ (fun i r => r.1 ≤ i ∧ i < r.2) index ranges) ∧
        items.Nodup ∧ items.Pairwise (· < ·) ∧
        ∀ n, (w.calls n).call.2 = items[n]? ∧ (w.calls n).remaining = (items.drop n).length) ∧
    (∀ w, (ofRanges (shape.map (0, ·)) : Outcome ε Walk) = .ok w →
      ∀ k index, (w.calls k).call.2 = some index →
        (∃ steps, (Layout.checkedStrides shape : Outcome ε (List Nat)) = .ok steps ∧
          (Layout.checkedOffset steps index : Outcome ε Nat) = .ok k) ∧
        ∀ t : Tensor α, t.shape = shape → ∃ hk : k < t.data.length, t.get? index = some t.data[k]) ∧
    ∀ (t : Tensor α) (index : Index), t.get? index = none ↔ index.length ≠ t.rank ∨
      ∃ d i size : Nat, index[d]? = some i ∧ t.shape[d]? = some size ∧ size ≤ i := by
  refine ⟨ofRanges_eq_fault_iff, exists_ofRanges_of_lt, fun hcounted => ?_, fun w hw k index =>
    distance_of_calls hw,
    fun t index => Tensor.get?_eq_none_iff⟩
  have hw : (ofRanges ranges : Outcome ε Walk) = .ok (rest ranges 0) := by
    rw [ofRanges_eq, if_pos hcounted]
  exact ⟨_, hw, box ranges, fun _ => mem_box_iff, nodup_box ranges, pairwise_box ranges,
    calls_ofRanges hw⟩

theorem visits_rows_square :
    (∃ w, (ofRanges [(1, 3), (2, 4)] : Outcome OpError Walk) = .ok w ∧ ∃ items : List Index,
      [2, 3] ∈ items ∧ [3, 2] ∉ items ∧ items.Pairwise (· < ·) ∧
      ∀ n, (w.calls n).call.2 = items[n]?) ∧
    (⟨[2, 2], [5, 6, 7, 8], rfl⟩ : Tensor Int64).get? [1, 0] = some 7 ∧
    (⟨[2, 2], [5, 6, 7, 8], rfl⟩ : Tensor Int64).get? [1, 2] = none := by
  obtain ⟨-, -, hvisits, hdistance, hnone⟩ :=
    visits_rows (ε := OpError) (α := Int64) [(1, 3), (2, 4)] [2, 2]
  obtain ⟨w, hw, items, hmem, -, hincreasing, hcalls⟩ := hvisits (by decide)
  have hrows : (ofRanges ([2, 2].map (0, ·)) : Outcome OpError Walk) =
      .ok ⟨[(0, 2), (0, 2)], some [0, 0], 4⟩ := by
    decide
  obtain ⟨-, hstored⟩ := hdistance _ hrows 2 [1, 0] (by decide)
  obtain ⟨_, hread⟩ := hstored ⟨[2, 2], [5, 6, 7, 8], rfl⟩ rfl
  refine ⟨⟨w, hw, items, (hmem _).mpr ?_, mt (hmem _).mp ?_, hincreasing, fun n => (hcalls n).1⟩,
    hread, ?_⟩
  · simp
  · simp
  · exact (hnone _ _).mpr (.inr ⟨1, 2, 2, rfl, rfl, le_rfl⟩)

/-- The product of the lengths overflows before the empty range is met. -/
theorem ofRanges_fault_late_empty :
    ([(0, 2 ^ 32), (0, 2 ^ 32), (0, 0)].map fun r => r.2 - r.1).prod < sizeLimit ∧
      (ofRanges [(0, 2 ^ 32), (0, 2 ^ 32), (0, 0)] : Outcome OpError Walk) = .fault := by
  decide

end Walk

end Index

end TensorGraph
