import TensorGraph.Proofs.Applying
import TensorGraph.Proofs.Safety.Indexing
import TensorGraph.Proofs.Writes

/-! Slices that are written at tuples of indices and read at the same tuples again. A position of
the updates is the place of a tuple and a position in its slice; tuples that differ lead to slices
that do not meet. -/

namespace TensorGraph

open Outcome

variable {ε α : Type}

namespace Indexing

/-- The position that an index denotes along a dimension, where negative ones count from the end. -/
def position (size : Nat) (index : Int64) : Nat :=
  (if index.toInt < 0 then index.toInt + size else index.toInt).toNat

def InRange (size : Nat) (index : Int64) : Prop := -(size : Int) ≤ index.toInt ∧ index.toInt < size

instance (size : Nat) (index : Int64) : Decidable (InRange size index) :=
  inferInstanceAs (Decidable (_ ∧ _))

variable {size : Nat} {index : Int64}

theorem InRange.position_lt (h : InRange size index) : position size index < size := by
  obtain ⟨hlow, hhigh⟩ := h
  unfold position
  split_ifs <;> omega

theorem InRange.resolve_eq_ok (h : InRange size index) (hsize : size < intLimit) :
    resolve size index = .ok (position size index) := by
  have hlimit := intLimit_eq
  obtain ⟨hlow, hhigh⟩ := h
  have hlimit := toInt_intOfSize hsize
  -- the index as a word that is not negative
  obtain ⟨p, hp, hword⟩ : ∃ p : Int64, p.toInt = position size index ∧
      (if index < 0 then checkInt (index.toInt + (intOfSize size).toInt) else .ok index :
        Outcome OpError Int64) = .ok p := by
    unfold position
    by_cases hneg : index.toInt < 0
    · have hfits : FitsInt (index.toInt + (intOfSize size).toInt) := by
        rw [hlimit]
        unfold FitsInt
        omega
      obtain ⟨p, hp, hvalue⟩ := exists_checkInt (ε := OpError) hfits
      refine ⟨p, ?_, ?_⟩
      · rw [hvalue, hlimit, if_pos hneg, Int.toNat_of_nonneg (by omega)]
      · rw [if_pos (Int64.lt_iff_toInt_lt.mpr (by simpa using hneg)), hp]
    · refine ⟨index, by rw [if_neg hneg, Int.toNat_of_nonneg (by omega)], ?_⟩
      rw [if_neg (mt Int64.lt_iff_toInt_lt.mp (by simpa using hneg))]
  have hlt : position size index < size := InRange.position_lt ⟨hlow, hhigh⟩
  have hinside : ¬(p < 0 ∨ p ≥ intOfSize size) := by
    rw [Int64.lt_iff_toInt_lt, ge_iff_le, Int64.le_iff_toInt_le, hp, hlimit, Int64.toInt_zero]
    omega
  have hnonneg : (0 : Int64) ≤ p := by
    rw [Int64.le_iff_toInt_le, hp, Int64.toInt_zero]
    omega
  simp only [resolve, ite_bind]
  rw [hword, ok_bind, if_neg hinside, sizeOfInt_of_nonneg hnonneg, hp]
  rfl

end Indexing

namespace GatherND

def entry (indices : Tensor Int64) (place : Index) (i : Nat) : Int64 :=
  (indices.get? (place ++ [i])).getD 0

/-- The first coordinates of the positions that the tuple at a place of the indices denotes. -/
def front (shape : Shape) (indices : Tensor Int64) (place : Index) : Index :=
  (List.range (indices.shape.getLastD 0)).map fun i =>
    Indexing.position (shape.getD i 0) (entry indices place i)

def target (shape : Shape) (indices : Tensor Int64) (index : Index) : Index :=
  front shape indices (index.take (indices.shape.length - 1)) ++
    index.drop (indices.shape.length - 1)

/-- Whether all indices are in range, and the tuples at any two places denote different
positions. -/
structure Addressed (shape : Shape) (indices : Tensor Int64) : Prop where
  in_range : ∀ place ∈ Index.all indices.shape.dropLast, ∀ i < indices.shape.getLastD 0,
    Indexing.InRange (shape.getD i 0) (entry indices place i)
  injective : ∀ place ∈ Index.all indices.shape.dropLast,
    ∀ other ∈ Index.all indices.shape.dropLast,
    front shape indices place = front shape indices other → place = other

instance (shape : Shape) (indices : Tensor Int64) : Decidable (Addressed shape indices) :=
  decidable_of_iff (_ ∧ _) ⟨fun h => ⟨h.1, h.2⟩, fun h => ⟨h.1, h.2⟩⟩

structure Tuples (shape : Shape) (indices : Tensor Int64) (places : Shape) (length : Nat) : Prop
  where
  shape_eq : indices.shape = places ++ [length]
  length_le : length ≤ shape.length

theorem length_places_le {places rest : Shape} {index : Index}
    (h : List.Forall₂ (· < ·) index (places ++ rest)) : places.length ≤ index.length :=
  (List.prefix_append places rest).length_le.trans_eq h.length_eq.symm

namespace Tuples

variable {shape places : Shape} {indices : Tensor Int64} {length : Nat} {place index : Index}

theorem front_eq (h : Tuples shape indices places length) (place : Index) :
    front shape indices place = (List.range length).map fun i =>
      Indexing.position (shape.getD i 0) (entry indices place i) := by
  rw [front, h.shape_eq, List.getLastD_concat]

theorem length_front (h : Tuples shape indices places length) (place : Index) :
    (front shape indices place).length = length := by
  rw [h.front_eq, List.length_map, List.length_range]

theorem target_eq (h : Tuples shape indices places length) (index : Index) :
    target shape indices index =
    front shape indices (index.take places.length) ++ index.drop places.length := by
  rw [target, h.shape_eq, List.length_append, List.length_singleton, Nat.add_sub_cancel]

theorem mem_places_iff (h : Tuples shape indices places length) :
    place ∈ Index.all indices.shape.dropLast ↔ List.Forall₂ (· < ·) place places := by
  rw [h.shape_eq, List.dropLast_concat, Index.mem_all_iff]

theorem in_range (h : Tuples shape indices places length) (haddressed : Addressed shape indices)
    (hplace : List.Forall₂ (· < ·) place places) {i : Nat} (hi : i < length) :
    Indexing.InRange (shape.getD i 0) (entry indices place i) :=
  haddressed.in_range place (h.mem_places_iff.mpr hplace) i
    (by rwa [h.shape_eq, List.getLastD_concat])

theorem front_lt (h : Tuples shape indices places length) (haddressed : Addressed shape indices)
    (hplace : List.Forall₂ (· < ·) place places) :
    List.Forall₂ (· < ·) (front shape indices place) (shape.take length) := by
  have hlength : (shape.take length).length = length := by
    rw [List.length_take, Nat.min_eq_left h.length_le]
  refine List.forall₂_iff_get.mpr ⟨by rw [h.length_front, hlength], fun i hi hi' => ?_⟩
  rw [hlength] at hi'
  have hlt := (h.in_range haddressed hplace hi').position_lt
  have hin : i < shape.length := hi'.trans_le h.length_le
  have hsize : shape.getD i 0 = shape[i] := by
    rw [List.getD_eq_getElem?_getD, List.getElem?_eq_getElem hin, Option.getD_some]
  simp only [List.get_eq_getElem, h.front_eq, List.getElem_map, List.getElem_range,
    List.getElem_take]
  exact hlt.trans_eq hsize

theorem target_lt (h : Tuples shape indices places length) (haddressed : Addressed shape indices)
    (hindex : List.Forall₂ (· < ·) index (places ++ shape.drop length)) :
    List.Forall₂ (· < ·) (target shape indices index) shape := by
  have hplace := List.forall₂_take_append _ _ _ hindex
  have hall := Related.append (h.front_lt haddressed hplace) (List.forall₂_drop_append _ _ _ hindex)
  rwa [List.take_append_drop, ← h.target_eq] at hall

/-- Positions of slices at tuples that differ do not meet. -/
theorem target_injOn (h : Tuples shape indices places length)
    (haddressed : Addressed shape indices) :
    Set.InjOn (target shape indices)
      {index | List.Forall₂ (· < ·) index (places ++ shape.drop length)} := by
  intro index hindex other hother heq
  rw [h.target_eq, h.target_eq] at heq
  obtain ⟨hfront, hrest⟩ := List.append_inj heq (by rw [h.length_front, h.length_front])
  have hplace := h.mem_places_iff.mpr (List.forall₂_take_append _ _ _ hindex)
  have hplace' := h.mem_places_iff.mpr (List.forall₂_take_append _ _ _ hother)
  rw [← List.take_append_drop places.length index, ← List.take_append_drop places.length other,
    hrest, haddressed.injective _ hplace _ hplace' hfront]

theorem tuple_eq_ok {x : Tensor α} (h : Tuples x.shape indices places length)
    (haddressed : Addressed x.shape indices) (hsizes : ∀ n ∈ x.shape, n < intLimit)
    (hplace : List.Forall₂ (· < ·) place places) :
    tuple x indices 0 length place = .ok (front x.shape indices place) := by
  refine mapM_range_eq_ok (h.length_front place) fun i hi => ?_
  rw [h.length_front] at hi
  have hin : i < x.shape.length := hi.trans_le h.length_le
  have hsize : (x.size (0 + i) : Outcome OpError Nat) = .ok (x.shape.getD i 0) := by
    rw [Nat.zero_add, Tensor.size, List.getD_eq_getElem?_getD, List.getElem?_eq_getElem hin]
    rfl
  have hsmall : x.shape.getD i 0 < intLimit := by
    rw [List.getD_eq_getElem?_getD, List.getElem?_eq_getElem hin, Option.getD_some]
    exact hsizes _ (List.getElem_mem _)
  have hresolve := (h.in_range haddressed hplace hi).resolve_eq_ok hsmall
  rw [entry] at hresolve
  rw [hsize, ok_bind, hresolve]
  simp only [h.front_eq, List.getElem_map, List.getElem_range, entry]

end Tuples

end GatherND

theorem Value.Held.size_lt {v : Value} (h : v.Held) :
    ∀ index, List.Forall₂ (· < ·) index v.shape → ∀ n ∈ v.shape, n < intLimit := by
  intro index hindex n hn
  have hcount := (Shape.le_volume_of_lt hindex hn).trans_eq v.count_eq_volume.symm
  have hbytes : v.count ≤ v.bytes := Nat.le_mul_of_pos_right _ (by cases v.dtype <;> decide)
  exact (hcount.trans hbytes).trans_lt h.room

section

variable {x y updates out : Tensor α} {indices : Tensor Int64} {places : Shape} {length : Nat}

namespace GatherND.Tuples

theorem gather_eq_ok (h : Tuples x.shape indices places length)
    (haddressed : Addressed x.shape indices)
    (hupdates : updates.shape = places ++ x.shape.drop length) (hcount : updates.shape.Counted)
    (hsizes : ∀ index, List.Forall₂ (· < ·) index x.shape → ∀ n ∈ x.shape, n < intLimit)
    (hy : y.shape = x.shape) (hout : out.shape = updates.shape)
    (hread : ∀ index, List.Forall₂ (· < ·) index updates.shape →
      y.get? (target x.shape indices index) = updates.get? index) :
    fill ⟨0⟩ y indices out = .ok updates := by
  rw [fill, tupleLayout_eq_ok h.shape_eq, ok_bind]
  dsimp only
  rw [hout, Layout.checkedAll_eq, if_pos hcount, ok_bind]
  refine bind_eq_ok.mpr ⟨updates.data, mapM_eq_ok.mpr ?_,
    congrArg Outcome.ok (Tensor.overwrite_eq hout)⟩
  have hreads :=
    (List.forall₂_and_left _ _).mpr ⟨fun _ => Index.lt_of_mem_all, updates.forall₂_get?⟩
  refine hreads.imp fun index a hplaced => ?_
  obtain ⟨hindex, ha⟩ := hplaced
  rw [← hread index hindex] at ha
  rw [hupdates] at hindex
  have hplace := List.forall₂_take_append _ _ _ hindex
  have hrank := length_places_le hindex
  have htuple := (hy ▸ h).tuple_eq_ok (hy ▸ haddressed)
    (hy ▸ hsizes _ (h.target_lt haddressed hindex)) hplace
  rw [demand, if_pos ⟨Nat.zero_le _, hrank⟩, ok_bind, htuple, ok_bind, List.take_zero,
    List.nil_append, hy, ← h.target_eq, ha]
  rfl

end GatherND.Tuples

namespace ScatterND

open GatherND

variable [Element α]

theorem update_replace {index : Index} (h : List.Forall₂ (· < ·) index out.shape) (a : α) :
    Scatter.update .replace out index a = .ok (out.write [(index, a)]) := by
  obtain ⟨b, hb⟩ := Option.isSome_iff_exists.mp (Tensor.isSome_get?_iff.mpr h)
  obtain ⟨u, hu, -⟩ := Tensor.exists_set? h a
  have hwrite : out.write [(index, a)] = (out.set? index a).getD out := rfl
  rw [Scatter.update, hb, orRefuse_some, ok_bind, Combination.apply, ok_bind, hwrite, hu]
  rfl

theorem fill_eq_ok (h : Tuples x.shape indices places length)
    (haddressed : Addressed x.shape indices)
    (hupdates : updates.shape = places ++ x.shape.drop length) (hcount : updates.shape.Counted)
    (hsizes : ∀ index, List.Forall₂ (· < ·) index x.shape → ∀ n ∈ x.shape, n < intLimit)
    (hout : out.shape = x.shape) :
    fill ⟨.replace⟩ x indices updates out =
      .ok (x.write (updates.moved (target x.shape indices))) := by
  rw [fill, Scatter.copyOf_eq_ok hout, ok_bind, tupleLayout_eq_ok h.shape_eq, ok_bind]
  dsimp only
  rw [Layout.checkedAll_eq, if_pos hcount, ok_bind, Tensor.overwrite_eq hout]
  refine Tensor.foldlM_write fun s hs u hu => ?_
  have hindex := Index.lt_of_mem_all (List.of_mem_zip hs).1
  rw [hupdates] at hindex
  have hplace := List.forall₂_take_append _ _ _ hindex
  have hrank := length_places_le hindex
  have htarget := h.target_lt haddressed hindex
  rw [demand, if_pos hrank, ok_bind, h.tuple_eq_ok haddressed (hsizes _ htarget) hplace, ok_bind,
    ← h.target_eq]
  exact update_replace (hu ▸ htarget) s.2

end ScatterND

end

namespace ScatterND

open GatherND

/-- Updates that the rule accepts, at tuples in range of which no two denote the same positions,
replace the slices at these tuples. Gathering at the same tuples gives them back, and the elements
that no tuple addresses stay. -/
theorem gather_of_scatter [Value.Stored α] [Value.Stored.Lawful α] {x updates out : Tensor α}
    {indices : Tensor Int64} {ws : List SymTensor} (hx : (Value.Stored.wrap x).Held)
    (hindices : (Value.int indices).Held) (hupdates : (Value.Stored.wrap updates).Held)
    (hinfer : infer [some (Value.Stored.wrap x).toShapeOnly, some (Value.int indices).toShapeOnly,
      some (Value.Stored.wrap updates).toShapeOnly] = .ok ws)
    (haddressed : Addressed x.shape indices) (hout : out.shape = x.shape) :
    ∃ y, fill ⟨.replace⟩ x indices updates out = .ok y ∧ y.shape = x.shape ∧
      (∀ z : Tensor α, z.shape = updates.shape → GatherND.fill ⟨0⟩ y indices z = .ok updates) ∧
        ∀ index : Index,
        (∀ place ∈ Index.all indices.shape.dropLast, ¬front x.shape indices place <+: index) →
          y.get? index = x.get? index := by
  have hshape : ∀ t : Tensor α, (Value.Stored.wrap t).shape = t.shape :=
    Value.Stored.Lawful.shape_wrap
  have hrule : (Indexing.demandInts (Value.int indices).toShapeOnly >>= fun _ =>
      demandShape (.ofShape (Value.Stored.wrap x).shape) (.ofShape indices.shape)
        (.ofShape (Value.Stored.wrap updates).shape) >>= fun _ =>
      Scatter.output (Value.Stored.wrap x).toShapeOnly (Value.Stored.wrap updates).toShapeOnly >>=
        fun w =>
      .ok [w]) = .ok ws := hinfer
  obtain ⟨_, -, hrule⟩ := bind_eq_ok.mp hrule
  obtain ⟨_, hdemand, -⟩ := bind_eq_ok.mp hrule
  obtain ⟨places, length, hlist, hlong, hslices⟩ :=
    shape_updates hx.sizes hindices.sizes hupdates.sizes hdemand
  rw [hshape] at hlong
  rw [hshape, hshape] at hslices
  have htuples : Tuples x.shape indices places length := ⟨hlist, hlong⟩
  have hcount := hshape updates ▸ hupdates.counted
  have hsizes := hshape x ▸ hx.size_lt
  have hy := Tensor.shape_write x (updates.moved (target x.shape indices))
  have hmoved := htuples.target_injOn haddressed
  rw [← hslices] at hmoved
  have hfill := fill_eq_ok htuples haddressed hslices hcount hsizes hout
  refine ⟨_, hfill, hy, fun z hz => ?_, fun index hfree => ?_⟩
  · refine htuples.gather_eq_ok haddressed hslices hcount hsizes hy hz fun index hindex => ?_
    exact Tensor.get?_write_moved hmoved hindex (htuples.target_lt haddressed (hslices ▸ hindex))
  · refine Tensor.get?_write_moved_of_ne fun source hsource => ?_
    rintro rfl
    have hplace := htuples.mem_places_iff.mpr (List.forall₂_take_append _ _ _ (hslices ▸ hsource))
    refine hfree _ hplace ?_
    rw [htuples.target_eq]
    exact List.prefix_append _ _

/-- Two of three rows, one of them counted from the end. -/
theorem gather_of_scatter_rows :
    ∃ y, fill ⟨.replace⟩ ⟨[3, 2], [0, 1, 2, 3, 4, 5], rfl⟩ ⟨[2, 1], [-1, 0], rfl⟩
      ⟨[2, 2], [10, 11, 20, 21], rfl⟩ (⟨[3, 2], [0, 0, 0, 0, 0, 0], rfl⟩ : Tensor Int64) = .ok y ∧
    GatherND.fill ⟨0⟩ y ⟨[2, 1], [-1, 0], rfl⟩ ⟨[2, 2], [0, 0, 0, 0], rfl⟩ =
      .ok ⟨[2, 2], [10, 11, 20, 21], rfl⟩ ∧ y.get? [1, 1] = some 3 := by
  have hx : (Value.Stored.wrap (⟨[3, 2], [0, 1, 2, 3, 4, 5], rfl⟩ : Tensor Int64)).Held := by decide
  have hindices : (Value.int ⟨[2, 1], [-1, 0], rfl⟩).Held := by decide
  have hupdates : (Value.Stored.wrap (⟨[2, 2], [10, 11, 20, 21], rfl⟩ : Tensor Int64)).Held := by
    decide
  obtain ⟨y, hy, -, hgather, hfree⟩ := gather_of_scatter hx hindices hupdates rfl (by decide) rfl
  exact ⟨y, hy, hgather _ rfl, hfree [1, 1] (by decide)⟩

end ScatterND

end TensorGraph
