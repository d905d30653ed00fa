import TensorGraph.Proofs.Applying
import TensorGraph.Proofs.Writes

/-! Orders of the dimensions. A permuted tensor is read at permuted positions, so that one order
after another is the composed order, and each order is undone by its inverse. -/

namespace TensorGraph

open Outcome

variable {ε α : Type} {n : Nat} {p q perm xs : List Nat} {shape : Shape} {index : Index}

namespace Layout

def reorder (perm xs : List Nat) : List Nat := perm.map fun d => xs.getD d 0

def inverse (perm : List Nat) : List Nat := (List.range perm.length).map fun d => perm.idxOf d

theorem isPermutation_iff : isPermutation n perm = true ↔ perm.Perm (List.range n) := by
  refine ⟨perm_of_isPermutation, fun h => ?_⟩
  have hcount : ∀ d < n, perm.count d = 1 := by
    intro d hd
    rw [h.count_eq]
    exact List.count_eq_one_of_mem List.nodup_range (List.mem_range.mpr hd)
  have hlength : perm.length = n := by simpa using h.length_eq
  simpa [isPermutation, hlength] using hcount

theorem lt_of_perm (h : perm.Perm (List.range n)) {d : Nat} (hd : d ∈ perm) : d < n :=
  List.mem_range.mp (h.mem_iff.mp hd)

theorem length_of_perm (h : perm.Perm (List.range n)) : perm.length = n := by
  simpa using h.length_eq

@[simp] theorem length_reorder (perm xs : List Nat) : (reorder perm xs).length = perm.length := by
  simp [reorder]

theorem reorder_range (h : xs.length = n) : reorder (List.range n) xs = xs := by
  rw [reorder, ← h, map_getD_range]

theorem getD_reorder (xs : List Nat) {k : Nat} (hk : k < perm.length) :
    (reorder perm xs).getD k 0 = xs.getD (perm.getD k 0) 0 := by
  simp [reorder, hk]

theorem reorder_reorder (xs : List Nat) (hq : ∀ k ∈ q, k < p.length) :
    reorder q (reorder p xs) = reorder (reorder q p) xs := by
  have hitem : ∀ k ∈ q, (reorder p xs).getD k 0 = xs.getD (p.getD k 0) 0 :=
    fun k hk => getD_reorder xs (hq k hk)
  rw [reorder, List.map_congr_left hitem, reorder, reorder, List.map_map]
  rfl

theorem perm_reorder (hp : p.Perm (List.range n)) (hq : q.Perm (List.range n)) :
    (reorder q p).Perm (List.range n) := by
  refine (hq.map _).trans ?_
  rw [← length_of_perm hp, map_getD_range, length_of_perm hp]
  exact hp

theorem perm_inverse (h : perm.Perm (List.range n)) : (inverse perm).Perm (List.range n) := by
  have hmem : ∀ d ∈ List.range n, d ∈ perm := fun d hd => h.mem_iff.mpr hd
  have hlength := length_of_perm h
  refine List.Subperm.perm_of_length_le (List.subperm_of_subset ?_ fun k hk =>
    ?_) (by simp [inverse, hlength])
  · refine List.Nodup.map_on (fun d hd e he heq => ?_) List.nodup_range
    rw [hlength] at hd
    exact (List.idxOf_inj (hmem d hd)).mp heq
  · obtain ⟨d, hd, rfl⟩ := List.mem_map.mp hk
    rw [hlength] at hd
    exact List.mem_range.mpr (hlength ▸ List.idxOf_lt_length_of_mem (hmem d hd))

theorem reorder_inverse (h : perm.Perm (List.range n)) :
    reorder (inverse perm) perm = List.range n := by
  have hitem : ∀ d ∈ List.range n, perm.getD (perm.idxOf d) 0 = d := by
    intro d hd
    have hlt := List.idxOf_lt_length_of_mem (h.mem_iff.mpr hd)
    rw [List.getD_eq_getElem _ _ hlt, List.getElem_idxOf]
  rw [reorder, inverse, List.map_map, length_of_perm h]
  exact (List.map_congr_left hitem).trans (List.map_id _)

theorem inverse_reorder (h : perm.Perm (List.range n)) :
    reorder perm (inverse perm) = List.range n := by
  have hnodup : perm.Nodup := h.nodup_iff.mpr List.nodup_range
  have hlength := length_of_perm h
  refine List.ext_getElem (by simp [hlength]) fun k hk _ => ?_
  rw [length_reorder] at hk
  have hd := lt_of_perm h (List.getElem_mem hk)
  simp [reorder, inverse, hlength, hd, hnodup.idxOf_getElem]

theorem offset_eq_sum (steps : List Nat) (index : Index) :
    offset steps index = (List.zipWith (· * ·) steps index).sum := by
  induction steps generalizing index with
  | nil => simp [offset]
  | cons s steps ih => cases index <;> simp [offset, ih]

/-- Steps and coordinates in one order lead to the same place in each. -/
theorem offset_reorder {steps : List Nat} (h : perm.Perm (List.range index.length))
    (hlength : steps.length = index.length) :
    offset (reorder perm steps) (reorder perm index) = offset steps index := by
  have hsum : ∀ ds : List Nat, offset (reorder ds steps) (reorder ds index) =
      (ds.map fun d => steps.getD d 0 * index.getD d 0).sum := by
    intro ds
    simp [offset_eq_sum, reorder, List.zipWith_map]
  rw [hsum, (h.map _).sum_nat, ← hsum, reorder_range hlength, reorder_range rfl]

theorem reorder_lt (h : perm.Perm (List.range shape.length))
    (hindex : List.Forall₂ (· < ·) index shape) :
    List.Forall₂ (· < ·) (reorder perm index) (reorder perm shape) := by
  rw [reorder, reorder, List.forall₂_map_left_iff, List.forall₂_map_right_iff, List.forall₂_same]
  intro d hd
  have hsize := List.getElem?_eq_getElem (lt_of_perm h hd)
  obtain ⟨i, hi, hlt⟩ := Related.get_right hindex hsize
  simpa [List.getD_eq_getElem?_getD, hi, hsize] using hlt

theorem exists_reorder (h : perm.Perm (List.range shape.length))
    (hindex : List.Forall₂ (· < ·) index (reorder perm shape)) :
    ∃ source, List.Forall₂ (· < ·) source shape ∧ reorder perm source = index := by
  have hinverse := perm_inverse h
  have hlength := length_of_perm h
  have hall : ∀ xs : List Nat, xs.length = shape.length →
      reorder (inverse perm) (reorder perm xs) = xs := by
    intro xs hxs
    rw [reorder_reorder xs fun k hk => hlength ▸ lt_of_perm hinverse hk, reorder_inverse h,
      reorder_range hxs]
  have hrank : index.length = shape.length := by rw [hindex.length_eq, length_reorder, hlength]
  refine ⟨reorder (inverse perm) index, ?_, ?_⟩
  · have hlisted : (inverse perm).Perm (List.range (reorder perm shape).length) := by
      rwa [length_reorder, hlength]
    have hback := reorder_lt hlisted hindex
    rwa [hall shape rfl] at hback
  · rw [reorder_reorder index fun k hk => length_of_perm hinverse ▸ lt_of_perm h hk,
      inverse_reorder h, reorder_range hrank]

end Layout

open Layout

namespace Tensor

variable {x y z : Tensor α}

/-- Whether a tensor has the elements of another one with its dimensions in the given order. -/
structure Reordered (perm : List Nat) (x y : Tensor α) : Prop where
  shape_eq : y.shape = reorder perm x.shape
  reads : ∀ index, List.Forall₂ (· < ·) index x.shape → y.get? (reorder perm index) = x.get? index

namespace Reordered

theorem unique (hperm : perm.Perm (List.range x.rank)) (hy : x.Reordered perm y)
    (hz : x.Reordered perm z) :
    y = z := by
  refine ext_get? (hy.shape_eq.trans hz.shape_eq.symm) fun index hindex => ?_
  obtain ⟨source, hsource, rfl⟩ := exists_reorder hperm (hy.shape_eq ▸ hindex)
  rw [hy.reads source hsource, hz.reads source hsource]

theorem refl (x : Tensor α) : x.Reordered (List.range x.rank) x := by
  refine ⟨(reorder_range rfl).symm, fun index hindex => ?_⟩
  have hrank : index.length = x.rank := hindex.length_eq
  rw [reorder_range hrank]

theorem trans (hp : p.Perm (List.range x.rank)) (hq : q.Perm (List.range x.rank))
    (hy : x.Reordered p y)
    (hz : y.Reordered q z) : x.Reordered (reorder q p) z := by
  have hcompose : ∀ xs, reorder q (reorder p xs) = reorder (reorder q p) xs := fun xs =>
    reorder_reorder xs fun k hk => length_of_perm hp ▸ lt_of_perm hq hk
  refine ⟨?_, fun index hindex => ?_⟩
  · rw [hz.shape_eq, hy.shape_eq, hcompose]
  · have hplace : List.Forall₂ (· < ·) (reorder p index) y.shape :=
      hy.shape_eq ▸ reorder_lt hp hindex
    rw [← hcompose, hz.reads _ hplace, hy.reads _ hindex]

theorem rank_eq (hperm : perm.Perm (List.range x.rank)) (hy : x.Reordered perm y) :
    y.rank = x.rank := by
  rw [rank, hy.shape_eq, length_reorder, length_of_perm hperm]

end Reordered

/-- When a tensor is permuted: its strides have to be computed, and the positions of the result
counted. -/
def Permutes (perm : List Nat) (shape : Shape) : Prop :=
  Shape.Counted shape.reverse ∧ Shape.Counted (reorder perm shape)

instance (perm : List Nat) (shape : Shape) : Decidable (Permutes perm shape) :=
  inferInstanceAs (Decidable (_ ∧ _))

theorem exists_permuted (hperm : perm.Perm (List.range x.rank)) (h : Permutes perm x.shape) :
    ∃ y, (x.permuted perm : Outcome ε (Tensor α)) = .ok y ∧ x.Reordered perm y := by
  have hread : ∀ source, List.Forall₂ (· < ·) source x.shape →
      x.data[offset (reorder perm (strides x.shape)) (reorder perm source)]? = x.get? source := by
    intro source hsource
    rw [get?_of_lt hsource, offset_reorder (hsource.length_eq ▸ hperm)]
    rw [length_strides, hsource.length_eq]
  have hreads : ∀ index ∈ Index.all (reorder perm x.shape), ∃ a,
      (.ofOption x.data[offset (reorder perm (strides x.shape)) index]? : Outcome ε α) = .ok a ∧
        x.data[offset (reorder perm (strides x.shape)) index]? = some a := by
    intro index hindex
    obtain ⟨source, hsource, rfl⟩ := exists_reorder hperm (Index.lt_of_mem_all hindex)
    obtain ⟨a, ha⟩ := Option.isSome_iff_exists.mp (isSome_get?_iff.mpr hsource)
    exact ⟨a, by rw [hread source hsource, ha, ofOption_some], by rw [hread source hsource, ha]⟩
  obtain ⟨data, hdata, hall⟩ := exists_mapM hreads
  have hlength : data.length = Shape.volume (reorder perm x.shape) := by
    rw [← hall.length_eq, Index.length_all]
  refine ⟨⟨_, data, hlength⟩, ?_, rfl, fun source hsource => ?_⟩
  · rw [permuted, Outcome.demand, if_pos (isPermutation_iff.mpr hperm), ok_bind, checkedStrides_eq,
      if_pos h.1, ok_bind]
    dsimp only
    rw [← reorder, ← reorder, checkedAll_eq, if_pos h.2, ok_bind, hdata, ok_bind]
    exact ofData_eq_ok_of_counted h.2 hlength
  · have hplace := reorder_lt hperm hsource
    obtain ⟨a, ha, hfound⟩ := Related.get_left hall (Index.getElem?_all hplace)
    rw [get?_of_lt hplace, ha, ← hread source hsource, hfound]

theorem permuted_eq_ok_iff : (x.permuted perm : Outcome ε (Tensor α)) = .ok y ↔
    perm.Perm (List.range x.rank) ∧ Permutes perm x.shape ∧ x.Reordered perm y := by
  constructor
  · intro hy
    obtain ⟨_, hperm, h⟩ := bind_eq_ok.mp hy
    obtain ⟨steps, hsteps, h⟩ := bind_eq_ok.mp h
    obtain ⟨positions, hpositions, -⟩ := bind_eq_ok.mp h
    have hperm := isPermutation_iff.mp (demand_eq_ok.mp hperm)
    rw [checkedStrides_eq] at hsteps
    rw [checkedAll_eq] at hpositions
    split_ifs at hsteps hpositions with hstrides hcount
    obtain ⟨z, hz, hreordered⟩ := exists_permuted (ε := ε) hperm ⟨hstrides, hcount⟩
    cases hy.symm.trans hz
    exact ⟨hperm, ⟨hstrides, hcount⟩, hreordered⟩
  · rintro ⟨hperm, h, hy⟩
    obtain ⟨z, hz, hreordered⟩ := exists_permuted (ε := ε) hperm h
    rw [hz, hy.unique hperm hreordered]

theorem permutes_of_extent (hperm : perm.Perm (List.range shape.length))
    (h : shape.extent < sizeLimit) :
    Permutes perm shape := by
  have hreverse : Shape.extent shape.reverse < sizeLimit :=
    Shape.extent_perm (List.reverse_perm shape) ▸ h
  have hreorder : Shape.extent (reorder perm shape) < sizeLimit :=
    Shape.extent_perm (perm_permuted hperm) ▸ h
  exact ⟨Shape.counted_of_extent hreverse, Shape.counted_of_extent hreorder⟩

section Orders

variable (hp : p.Perm (List.range x.rank)) (hq : q.Perm (List.range x.rank))

include hp hq

theorem permuted_permuted_eq_ok_iff (hy : (x.permuted p : Outcome ε (Tensor α)) = .ok y) :
    (y.permuted q : Outcome ε (Tensor α)) = .ok z ↔
      Shape.Counted y.shape.reverse ∧ (x.permuted (reorder q p) : Outcome ε (Tensor α)) =
      .ok z := by
  obtain ⟨-, hcounts, hreads⟩ := permuted_eq_ok_iff.mp hy
  have hrank := hreads.rank_eq hp
  have hqp := perm_reorder hp hq
  have hshape : reorder q y.shape = reorder (reorder q p) x.shape := by
    rw [hreads.shape_eq, reorder_reorder _ fun k hk => length_of_perm hp ▸ lt_of_perm hq hk]
  constructor
  · intro hz
    obtain ⟨-, hcounts', hreads'⟩ := permuted_eq_ok_iff.mp hz
    have hpermutes : Permutes (reorder q p) x.shape := ⟨hcounts.1, hshape ▸ hcounts'.2⟩
    exact ⟨hcounts'.1, permuted_eq_ok_iff.mpr ⟨hqp, hpermutes, hreads.trans hp hq hreads'⟩⟩
  · rintro ⟨hreverse, hz⟩
    obtain ⟨-, hcounts', hreads'⟩ := permuted_eq_ok_iff.mp hz
    have hqy : q.Perm (List.range y.rank) := hrank ▸ hq
    obtain ⟨z', hz', hreads''⟩ := exists_permuted (ε := ε) hqy ⟨hreverse, hshape ▸ hcounts'.2⟩
    rw [hz', hreads'.unique hqp (hreads.trans hp hq hreads'')]

end Orders

theorem permuted_inverse_eq_ok_iff (hp : p.Perm (List.range x.rank))
    (hy : (x.permuted p : Outcome ε (Tensor α)) = .ok y) :
    (y.permuted (inverse p) : Outcome ε (Tensor α)) = .ok x ↔
      Shape.Counted y.shape.reverse ∧ Shape.Counted x.shape := by
  obtain ⟨-, hcounts, -⟩ := permuted_eq_ok_iff.mp hy
  have hsame : reorder (List.range x.rank) x.shape = x.shape := reorder_range rfl
  rw [permuted_permuted_eq_ok_iff hp (perm_inverse hp) hy, reorder_inverse hp, permuted_eq_ok_iff,
    Permutes, hsame]
  simp [Reordered.refl, hcounts.1]

end Tensor

namespace Transpose

open Value.Stored

variable [Value.Stored α] [Value.Stored.Covered α] {x y : Tensor α} {op : Transpose}

theorem order_eq_ok_iff : op.order rank = .ok perm ↔
    op.perm.getD (List.range rank).reverse = perm ∧ perm.Perm (List.range rank) := by
  cases hop : op.perm with
  | none =>
    have hreverse := List.reverse_perm (List.range rank)
    simp only [order, hop, ok.injEq, Option.getD_none]
    exact ⟨fun h => ⟨h, h ▸ hreverse⟩, And.left⟩
  | some listed =>
    simp only [order, hop, Option.getD_some, isPermutation_iff]
    constructor
    · intro h
      split_ifs at h with hperm
      cases h
      exact ⟨rfl, hperm⟩
    · rintro ⟨rfl, hperm⟩
      exact if_pos hperm

theorem infer_eq_ok (horder : op.order x.rank = .ok perm) :
    ∃ w, (Operator.transpose op).infer
      ([some (wrap x)].zipIdx.map (Operator.transpose op).describeInput) =
      .ok [w] ∧ w.dtype = (wrap x).dtype ∧ w.shape = .ofShape (reorder perm x.shape) := by
  have hshape : (wrap x).toShapeOnly.shape = .ranked (x.shape.map .ofSize) :=
    congrArg SymShape.ofShape (Lawful.shape_wrap x)
  have hlength : op.order (x.shape.map SymDim.ofSize).length = .ok perm := by
    rw [List.length_map]
    exact horder
  have hsizes : perm.map (fun k => (x.shape.map SymDim.ofSize).getD k .unknown) =
      (reorder perm x.shape).map .ofSize := by
    rw [reorder, List.map_map]
    refine List.map_congr_left fun d hd => ?_
    have hlt : d < x.shape.length := lt_of_perm (order_eq_ok_iff.mp horder).2 hd
    simp [hlt]
  refine ⟨(wrap x).toShapeOnly.reshaped (.ofShape (reorder perm x.shape)), ?_, by simp, by simp⟩
  change op.infer [some (wrap x).toShapeOnly] = _
  have hdemand : SymInputs.demand [some (wrap x).toShapeOnly] 0 = .ok (wrap x).toShapeOnly := rfl
  rw [infer, hdemand, ok_bind]
  simp only [hshape, hlength, ok_bind, hsizes]
  rfl

/-- The kernel fills an output of the permuted shape with the permuted tensor. -/
theorem run_eq (horder : op.order x.rank = .ok perm) {z : Tensor α}
    (hz : z.shape = reorder perm x.shape) :
    (op.prepare [some (wrap x)] [wrap z] >>= fun k => k ()) =
      (x.permuted perm : Outcome OpError (Tensor α)) >>= Kernel.filled := by
  have hresolved : (op.order (wrap x).rank).mapError OpError.ofRule = .ok perm := by
    rw [Value.rank, Lawful.shape_wrap]
    exact congrArg (Outcome.mapError OpError.ofRule) horder
  have hdemand : ValueInputs.demand [some (wrap x)] 0 = .ok (wrap x) := rfl
  rw [prepare, hdemand, ok_bind, hresolved, ok_bind]
  refine (Covered.sameType_wrap x z fun x out => do
    let y ← x.permuted perm
    .refuseIf (y.count ≠ out.count) (.shape .lengthsDiffer)
    return out.overwrite y.data).trans ?_
  congr 1
  cases hy : (x.permuted perm : Outcome OpError (Tensor α)) with
  | ok y =>
    have hshape : y.shape = z.shape := (Tensor.permuted_eq_ok_iff.mp hy).2.2.shape_eq.trans hz.symm
    have hcount : y.count = z.count := by
      rw [Tensor.count, Tensor.count, y.length_data, z.length_data, hshape]
    simp [refuseIf, hcount, Tensor.overwrite_eq hshape.symm]
  | error e => rfl
  | fault => rfl

/-- A transposed tensor is the permuted one, where signed 64-bit integers hold its sizes. -/
theorem apply_eq_ok_iff (hx : (wrap x).Held) (horder : op.order x.rank = .ok perm)
    {vs : List Value} :
    Chain.reference.apply (.transpose op) [some (wrap x)] = .ok vs ↔ (∀ n ∈ x.shape, n < intLimit) ∧
      ∃ y, (x.permuted perm : Outcome OpError (Tensor α)) = .ok y ∧ vs = [wrap y] := by
  have hlisted := perm_permuted (order_eq_ok_iff.mp horder).2
  have hmem : ∀ n, n ∈ reorder perm x.shape ↔ n ∈ x.shape := fun n => hlisted.mem_iff
  have hlimit : ∀ n ∈ reorder perm x.shape, n < sizeLimit := fun n hn =>
    hx.sizes n (Lawful.shape_wrap x ▸ (hmem n).mp hn)
  obtain ⟨w, hinfer, hdtype, hshape⟩ := infer_eq_ok horder
  rw [Chain.apply_eq_ok_iff (.transpose op) rfl rfl rfl hinfer hdtype hshape hlimit fun z hz =>
    run_eq horder hz]
  simp only [hmem]
  refine and_congr_right fun _ => ⟨And.right, fun ⟨y, hy, hvs⟩ => ⟨?_, y, hy, hvs⟩⟩
  have hcounted := (Tensor.permuted_eq_ok_iff.mp hy).2.1.2
  have hrank := hx.rank
  have hroom := hx.room
  rw [Value.bytes, Value.count_eq_volume, Shape.volume_eq_prod] at hroom
  rw [Lawful.shape_wrap] at hrank hroom
  refine Value.exists_zeros_iff.mpr ⟨hlisted.length_eq ▸ hrank, hcounted, ?_⟩
  rw [Shape.volume_eq_prod]
  exact hlisted.prod_eq ▸ hroom

theorem reorder_reverse (xs : List Nat) :
    reorder (List.range xs.length).reverse xs = xs.reverse := by
  rw [reorder, List.map_reverse, map_getD_range]

theorem reversed_twice (hx : (wrap x).Held) :
    ((∃ vs, Chain.reference.apply (.transpose ⟨none⟩) [some (wrap x)] = .ok vs) ↔
      (∀ n ∈ x.shape, n < intLimit) ∧ Shape.Counted x.shape.reverse) ∧
    ∀ vs, Chain.reference.apply (.transpose ⟨none⟩) [some (wrap x)] = .ok vs →
      ∃ w : Value, vs = [w] ∧ w.shape = x.shape.reverse ∧
        Chain.reference.apply (.transpose ⟨none⟩) [some w] = .ok [wrap x] := by
  have hreverse : (List.range x.rank).reverse.Perm (List.range x.rank) := List.reverse_perm _
  have horder : ∀ n, (⟨none⟩ : Transpose).order n = .ok (List.range n).reverse := fun _ => rfl
  have happly := @apply_eq_ok_iff α (List.range x.rank).reverse _ _ x ⟨none⟩ hx (horder _)
  have hshape : reorder (List.range x.rank).reverse x.shape = x.shape.reverse :=
    reorder_reverse x.shape
  simp only [happly]
  constructor
  · constructor
    · rintro ⟨_, hsizes, y, hy, -⟩
      exact ⟨hsizes, (Tensor.permuted_eq_ok_iff.mp hy).2.1.1⟩
    · rintro ⟨hsizes, hcounted⟩
      obtain ⟨y, hy, -⟩ :=
        Tensor.exists_permuted (ε := OpError) hreverse ⟨hcounted, hshape ▸ hcounted⟩
      exact ⟨_, hsizes, y, hy, rfl⟩
  · rintro _ ⟨hsizes, y, hy, rfl⟩
    obtain ⟨-, hpermutes, hreads⟩ := Tensor.permuted_eq_ok_iff.mp hy
    have hyshape : y.shape = x.shape.reverse := hreads.shape_eq.trans hshape
    have hyrank : y.rank = x.rank := hreads.rank_eq hreverse
    have hxcounted : Shape.Counted x.shape := Lawful.shape_wrap x ▸ hx.counted
    have hsmall : ∀ n ∈ y.shape, n < intLimit := by
      rw [hyshape]
      simpa using hsizes
    have hback : (y.permuted (List.range x.rank).reverse : Outcome OpError (Tensor α)) = .ok x := by
      have hcancel : reorder (List.range x.rank).reverse (List.range x.rank).reverse =
          List.range x.rank := by
        have h := reorder_reverse (List.range x.rank).reverse
        simpa using h
      have hsame : (x.permuted (List.range x.rank) : Outcome OpError (Tensor α)) = .ok x := by
        have hkept : reorder (List.range x.rank) x.shape = x.shape := reorder_range rfl
        rw [Tensor.permuted_eq_ok_iff, Tensor.Permutes, hkept]
        exact ⟨.refl _, ⟨hpermutes.1, hxcounted⟩, .refl x⟩
      rw [Tensor.permuted_permuted_eq_ok_iff hreverse hreverse hy, hyshape, List.reverse_reverse,
        hcancel]
      exact ⟨hxcounted, hsame⟩
    have hyheld : (wrap y).Held := by
      refine hx.of_volume (fun n hn => (hsmall n hn).trans (by decide)) hyrank ?_ ?_
      · rw [hyshape]
        exact hpermutes.1
      · rw [hyshape, Shape.volume_eq_prod, Shape.volume_eq_prod, List.prod_reverse]
    refine ⟨wrap y, rfl, (Lawful.shape_wrap y).trans hyshape, ?_⟩
    rw [apply_eq_ok_iff hyheld (horder _), hyrank]
    exact ⟨hsmall, x, hback, rfl⟩

end Transpose

/-- Orders of the dimensions act on tensors. The program tells orders of `n` dimensions from other
lists. A tensor can be permuted just if its strides can be computed and the positions of the result
counted, as they can where the sizes that are not zero have a product below `2 ^ 64`. The element
at a position then is found at the reordered one; one order after another is the composed order,
and an order and its inverse cancel. So do two reversals, which are possible where signed 64-bit
integers hold the sizes. -/
theorem Tensor.permuted_acts {x : Tensor α} {v : Value} (hp : p.Perm (List.range x.rank))
    (hq : q.Perm (List.range x.rank)) (hv : v.Held) :
    (∀ n perm, isPermutation n perm = true ↔ perm.Perm (List.range n)) ∧
    ((∃ y, (x.permuted p : Outcome ε (Tensor α)) = .ok y) ↔ Permutes p x.shape) ∧
    (∀ y, (x.permuted p : Outcome ε (Tensor α)) = .ok y → x.Reordered p y ∧
      (∀ z, (y.permuted q : Outcome ε (Tensor α)) = .ok z ↔
        Shape.Counted y.shape.reverse ∧ (x.permuted (reorder q p) : Outcome ε (Tensor α)) = .ok z) ∧
      ((y.permuted (inverse p) : Outcome ε (Tensor α)) = .ok x ↔
        Shape.Counted y.shape.reverse ∧ Shape.Counted x.shape)) ∧
    (x.shape.extent < sizeLimit → ∃ y, (x.permuted p : Outcome ε (Tensor α)) = .ok y ∧
      (y.permuted q : Outcome ε (Tensor α)) = x.permuted (reorder q p) ∧
      (y.permuted (inverse p) : Outcome ε (Tensor α)) = .ok x) ∧
    ((∃ vs, Chain.reference.apply (.transpose ⟨none⟩) [some v] = .ok vs) ↔
      (∀ n ∈ v.shape, n < intLimit) ∧ Shape.Counted v.shape.reverse) ∧
    ∀ vs, Chain.reference.apply (.transpose ⟨none⟩) [some v] = .ok vs →
      ∃ w, vs = [w] ∧ w.shape = v.shape.reverse ∧
        Chain.reference.apply (.transpose ⟨none⟩) [some w] = .ok [v] := by
  refine ⟨fun _ _ => isPermutation_iff, ⟨?_, ?_⟩, ?_, ?_, ?_⟩
  · rintro ⟨y, hy⟩
    exact (permuted_eq_ok_iff.mp hy).2.1
  · intro hpermutes
    obtain ⟨y, hy, -⟩ := exists_permuted (ε := ε) hp hpermutes
    exact ⟨y, hy⟩
  · intro y hy
    exact ⟨(permuted_eq_ok_iff.mp hy).2.2, fun _ => permuted_permuted_eq_ok_iff hp hq hy,
      permuted_inverse_eq_ok_iff hp hy⟩
  · intro hextent
    obtain ⟨y, hy, hreads⟩ := exists_permuted (ε := ε) hp (permutes_of_extent hp hextent)
    obtain ⟨z, hz, -⟩ := exists_permuted (ε := ε) (perm_reorder hp hq)
      (permutes_of_extent (perm_reorder hp hq) hextent)
    have hsame : y.shape.extent = x.shape.extent := by
      rw [hreads.shape_eq]
      exact Shape.extent_perm (perm_permuted hp)
    have hcounted : Shape.Counted y.shape.reverse := by
      refine Shape.counted_of_extent ?_
      rwa [Shape.extent_perm (List.reverse_perm _), hsame]
    refine ⟨y, hy, ?_, ?_⟩
    · rw [hz, permuted_permuted_eq_ok_iff hp hq hy]
      exact ⟨hcounted, hz⟩
    · rw [permuted_inverse_eq_ok_iff hp hy]
      exact ⟨hcounted, Shape.counted_of_extent hextent⟩
  · cases v with
    | float x => exact Transpose.reversed_twice (x := x) hv
    | int x => exact Transpose.reversed_twice (x := x) hv

/-- A tensor of rank three whose dimensions are rotated one way and back. -/
theorem Tensor.permuted_acts_rotation :
    ((⟨[2, 1, 3], [1, 2, 3, 4, 5, 6], rfl⟩ : Tensor Nat).permuted [1, 2, 0] :
      Outcome Unit (Tensor Nat)) =
      .ok ⟨[1, 3, 2], [1, 4, 2, 5, 3, 6], rfl⟩ ∧
    ((⟨[1, 3, 2], [1, 4, 2, 5, 3, 6], rfl⟩ : Tensor Nat).permuted [2, 0, 1] :
      Outcome Unit (Tensor Nat)) =
      .ok ⟨[2, 1, 3], [1, 2, 3, 4, 5, 6], rfl⟩ := by
  have hy : ((⟨[2, 1, 3], [1, 2, 3, 4, 5, 6], rfl⟩ : Tensor Nat).permuted [1, 2, 0] :
      Outcome Unit (Tensor Nat)) =
      .ok ⟨[1, 3, 2], [1, 4, 2, 5, 3, 6], rfl⟩ := by decide
  have hv : (Value.int ⟨[2], [1, 2], rfl⟩).Held := by decide
  have hacts := permuted_acts (ε := Unit) (x := (⟨[2, 1, 3], [1, 2, 3, 4, 5, 6], rfl⟩ : Tensor Nat))
    (p := [1, 2, 0]) (q := [2, 0, 1]) (by decide) (by decide) hv
  exact ⟨hy, ((hacts.2.2.1 _ hy).2.2).mpr ⟨by decide, by decide⟩⟩

/-- The strides of an empty tensor overflow behind its size of zero, though its order is the one it
has. -/
theorem Tensor.permuted_fault_empty :
    isPermutation 3 [0, 1, 2] = true ∧
    ofData? [0, 2 ^ 32, 2 ^ 32] ([] : List Int64) = .ok ⟨[0, 2 ^ 32, 2 ^ 32], [], rfl⟩ ∧
    ((⟨[0, 2 ^ 32, 2 ^ 32], [], rfl⟩ : Tensor Int64).permuted [0, 1, 2] :
      Outcome Unit (Tensor Int64)) = .fault := by
  exact ⟨by decide, by decide, by decide⟩

end TensorGraph
