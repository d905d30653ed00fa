import TensorGraph.Proofs.ScatteredSlices
import TensorGraph.Proofs.SplitJoins

/-! Slices that are picked along an axis, by indices or where a condition is not zero. Both
operators copy one run of elements for each picked place, one behind the other, so that they fill
the output; and the places where a condition is not zero, taken as indices, pick the same
slices. -/

namespace TensorGraph

open Outcome

variable {ε α : Type}

/-- Signed 64-bit integers do not hold the size of the axis, so that every index is refused. -/
theorem Indexing.resolve_ne_ok {size : Nat} (hlarge : intLimit ≤ size) (hsize : size < sizeLimit)
    (index : Int64) (k : Nat) : resolve size index ≠ .ok k := by
  intro h
  simp only [resolve, ite_bind] at h
  obtain ⟨n, -, hn⟩ := bind_eq_ok.mp h
  split_ifs at hn with hrange
  rw [not_or] at hrange
  have hneg := toInt_intOfSize_neg hlarge hsize
  have hlow : (0 : Int64) ≤ n := by simpa using hrange.1
  have hhigh : n < intOfSize size := by simpa using hrange.2
  rw [Int64.le_iff_toInt_le, Int64.toInt_zero] at hlow
  rw [Int64.lt_iff_toInt_lt] at hhigh
  omega

theorem Value.Held.count_lt {v : Value} (h : v.Held) : v.count < intLimit := by
  have hbytes : v.count ≤ v.bytes := Nat.le_mul_of_pos_right _ (by cases v.dtype <;> decide)
  exact hbytes.trans_lt h.room

theorem Shape.drop_append_cons (before after : Shape) (size : Nat) :
    (before ++ size :: after).drop (before.length + 1) = after := by
  rw [← List.drop_drop, List.drop_left, List.drop_one, List.tail_cons]

namespace Tensor

variable {x y out : Tensor α} {before after mid : Shape} {size : Nat} {ks : List Nat}

/-- The runs of elements at places along a dimension, as they are read one after the other. -/
def slices (x : Tensor α) (outer size inner : Nat) (ks : List Nat) : List (Outcome ε (List α)) :=
  (List.range outer).flatMap fun i => ks.map fun k => x.block ((i * size + k) * inner) inner

def runs (x : Tensor α) (outer size inner : Nat) (ks : List Nat) : List (List α) :=
  (List.range outer).flatMap fun i => ks.map fun k =>
    (x.data.drop ((i * size + k) * inner)).take inner

theorem run_le (hshape : x.shape = before ++ size :: after) {i k : Nat} (hi : i < before.volume)
    (hk : k < size) :
    (i * size + k) * after.volume + after.volume ≤ x.data.length := by
  rw [x.length_data, hshape, Shape.volume_append, Shape.volume, ← Nat.mul_assoc, ← Nat.succ_mul]
  refine Nat.mul_le_mul_right _ ?_
  calc i * size + k + 1 ≤ i * size + size := by omega
    _ = (i + 1) * size := (Nat.succ_mul i size).symm
    _ ≤ before.volume * size := Nat.mul_le_mul_right _ hi

theorem slices_eq (hshape : x.shape = before ++ size :: after) (hks : ∀ k ∈ ks, k < size) :
    (x.slices before.volume size after.volume ks : List (Outcome ε (List α))) =
      (x.runs before.volume size after.volume ks).map .ok := by
  rw [slices, runs, List.map_flatMap]
  refine List.flatMap_congr fun i hi => ?_
  rw [List.map_map]
  refine List.map_congr_left fun k hk => ?_
  exact block_eq_ok.mpr ⟨run_le hshape (List.mem_range.mp hi) (hks k hk), rfl⟩

theorem length_of_mem_runs (hshape : x.shape = before ++ size :: after) (hks : ∀ k ∈ ks, k < size) :
    ∀ run ∈ x.runs before.volume size after.volume ks, run.length = after.volume := by
  intro run hrun
  obtain ⟨i, hi, hrun⟩ := List.mem_flatMap.mp hrun
  obtain ⟨k, hk, rfl⟩ := List.mem_map.mp hrun
  have hle := run_le hshape (List.mem_range.mp hi) (hks k hk)
  rw [List.length_take, List.length_drop]
  omega

theorem length_flatten_runs (hshape : x.shape = before ++ size :: after)
    (hks : ∀ k ∈ ks, k < size) :
    (x.runs before.volume size after.volume ks).flatten.length = before.volume * ks.length *
      after.volume := by
  have hcount : (x.runs before.volume size after.volume ks).length = before.volume * ks.length := by
    simp [runs, List.length_flatMap]
  rw [List.length_flatten, List.map_congr_left (length_of_mem_runs hshape hks), List.map_const',
    List.sum_replicate_nat, hcount]

/-- Runs that are as many as the output asks for fill it, and nothing is written twice. -/
theorem writeBlocks_slices (hshape : x.shape = before ++ size :: after) (hks : ∀ k ∈ ks, k < size)
    (hmid : mid.volume = ks.length) (hout : out.shape = before ++ mid ++ after) :
    ∃ y, (out.writeBlocks (x.slices before.volume size after.volume ks) : Outcome ε (Tensor α)) =
      .ok y ∧
      y.shape = out.shape ∧ y.data = (x.runs before.volume size after.volume ks).flatten := by
  have hlength : out.data.length = (x.runs before.volume size after.volume ks).flatten.length := by
    rw [length_flatten_runs hshape hks, out.length_data, hout, Shape.volume_append,
      Shape.volume_append, hmid]
  obtain ⟨y, hy⟩ := exists_writeBlocks (ε := ε) hlength.ge
  obtain ⟨bs, hbs, hdata⟩ := data_writeBlocks hy
  obtain rfl := List.map_injective_iff.mpr (fun _ _ => ok.inj) hbs
  rw [slices_eq hshape hks]
  refine ⟨y, hy, keepsShape_writeBlocks _ _ y hy, ?_⟩
  rw [hdata, ← hlength, List.drop_length, List.append_nil]

theorem get?_of_runs (hshape : x.shape = before ++ size :: after) (hks : ∀ k ∈ ks, k < size)
    (hmid : mid.volume = ks.length) (hy : y.shape = before ++ mid ++ after)
    (hdata : y.data = (x.runs before.volume size after.volume ks).flatten) {p j s : Index} {k : Nat}
    (hp : List.Forall₂ (· < ·) p before) (hj : List.Forall₂ (· < ·) j mid)
    (hs : List.Forall₂ (· < ·) s after) (hk : ks[Layout.offset (Layout.strides mid) j]? = some k) :
    y.get? (p ++ j ++ s) = x.get? (p ++ k :: s) := by
  have hin := hks k (List.mem_of_getElem? hk)
  have hlast := Layout.offset_strides_lt hs
  have hplace := Layout.offset_strides_lt hj
  have hrun : (x.runs before.volume size after.volume ks)[
      Layout.offset (Layout.strides before) p * mid.volume +
        Layout.offset (Layout.strides mid) j]? =
        some ((x.data.drop ((Layout.offset (Layout.strides before) p * size + k) *
          after.volume)).take
          after.volume) := by
    rw [hmid] at hplace ⊢
    rw [runs, List.range_eq_range', Nat.mul_comm,
      getElem?_flatMap_range' (fun _ => List.length_map _) (Layout.offset_strides_lt hp) 0 hplace,
      Nat.zero_add, List.getElem?_map, hk, Option.map_some]
  have hread := getElem?_flatten_of_length (length_of_mem_runs hshape hks) hlast hrun
  rw [List.getElem?_take, if_pos hlast, List.getElem?_drop] at hread
  have hinside : List.Forall₂ (· < ·) (p ++ j ++ s) y.shape := by
    rw [hy]
    exact Related.append (Related.append hp hj) hs
  have hsource : List.Forall₂ (· < ·) (p ++ k :: s) x.shape := by
    rw [hshape]
    exact Related.append hp (.cons hin hs)
  have hrank : (p ++ j).length = (before ++ mid).length := by
    rw [List.length_append, List.length_append, hp.length_eq, hj.length_eq]
  rw [get?_of_lt hinside, get?_of_lt hsource, hy, hshape, Layout.offset_strides_append hrank,
    Layout.offset_strides_append hp.length_eq, Layout.offset_strides_append hp.length_eq, hdata,
    hread]
  simp only [Shape.volume, Layout.strides, Layout.offset]
  congr 1
  ring

theorem size_eq_ok_of_shape (hshape : x.shape = before ++ size :: after) :
    (x.size before.length : Outcome ε Nat) = .ok size := by
  rw [Tensor.size, hshape, List.getElem?_append_right le_rfl, Nat.sub_self, List.getElem?_cons_zero,
    ofOption_some]

/-- The sizes before a dimension can be counted if all of them can, those behind it need not. -/
theorem outerInner_eq (hshape : x.shape = before ++ size :: after) (hcounted : x.shape.Counted) :
    (x.outerInner before.length : Outcome ε (Nat × Nat)) =
      if after.Counted then .ok (before.volume, after.volume) else .fault := by
  have hbefore : before.Counted := hcounted.of_prefix (hshape ▸ List.prefix_append _ _)
  rw [outerInner, hshape, List.take_left, Shape.drop_append_cons, Layout.checkedCount_eq,
    if_pos hbefore, ok_bind, Layout.checkedCount_eq, ← Shape.volume_eq_prod, ← Shape.volume_eq_prod]
  split_ifs <;> rfl

end Tensor

namespace Gather

variable {x y out : Tensor α} {indices : Tensor Int64} {before after : Shape} {size : Nat}

def copied (x : Tensor α) (indices : Tensor Int64) (outer size inner : Nat) :
    List (Outcome OpError (List α)) :=
  (List.range outer).flatMap fun i => indices.data.map fun index =>
    Indexing.resolve size index >>= fun k => x.block ((i * size + k) * inner) inner

def places (size : Nat) (indices : Tensor Int64) : List Nat :=
  indices.data.map (Indexing.position size)

/-- Whether signed 64-bit integers hold the size of the axis, if any index is resolved. -/
def Resolvable (before : Shape) (size : Nat) (indices : Tensor Int64) : Prop :=
  size < intLimit ∨ before.volume = 0 ∨ indices.data = []

theorem fill_eq (hshape : x.shape = before ++ size :: after) (hcounted : x.shape.Counted) :
    fill x indices before.length out =
      if after.Counted then out.writeBlocks (copied x indices before.volume size after.volume)
      else .fault := by
  rw [fill, Tensor.outerInner_eq hshape hcounted, Tensor.size_eq_ok_of_shape hshape]
  split_ifs <;> rfl

theorem places_lt (hrange : ∀ i ∈ indices.data, Indexing.InRange size i) :
    ∀ k ∈ places size indices, k < size := by
  intro k hk
  obtain ⟨i, hi, rfl⟩ := List.mem_map.mp hk
  exact (hrange i hi).position_lt

theorem Resolvable.size_lt (h : Resolvable before size indices) {i : Nat} (hi : i < before.volume)
    {index : Int64} (hindex : index ∈ indices.data) : size < intLimit := by
  rcases h with hsize | hnone | hnone
  · exact hsize
  · omega
  · rw [hnone] at hindex
    cases hindex

/-- Indices that denote places copy the runs at these. -/
theorem copied_eq (hresolvable : Resolvable before size indices)
    (hrange : ∀ i ∈ indices.data, Indexing.InRange size i) (inner : Nat) :
    copied x indices before.volume size inner =
      x.slices before.volume size inner (places size indices) := by
  refine List.flatMap_congr fun i hi => ?_
  rw [places, List.map_map]
  refine List.map_congr_left fun index hindex => ?_
  have hsize := hresolvable.size_lt (List.mem_range.mp hi) hindex
  rw [(hrange index hindex).resolve_eq_ok hsize, ok_bind]
  rfl

/-- An index that is resolved against a larger size is refused or faults. -/
theorem resolvable_of_copied {inner : Nat} (hsize : size < sizeLimit) {bs : List (List α)}
    (h : copied x indices before.volume size inner = bs.map .ok) :
    Resolvable before size indices := by
  by_contra hlost
  simp only [Resolvable, not_or, not_lt] at hlost
  obtain ⟨hlarge, hbefore, hindices⟩ := hlost
  obtain ⟨index, hindex⟩ := List.exists_mem_of_ne_nil _ hindices
  have hcopied : (Indexing.resolve size index >>= fun k => x.block ((0 * size + k) * inner) inner) ∈
      copied x indices before.volume size inner :=
    List.mem_flatMap.mpr ⟨0, List.mem_range.mpr (Nat.pos_of_ne_zero hbefore),
      List.mem_map.mpr ⟨index, hindex, rfl⟩⟩
  rw [h] at hcopied
  obtain ⟨b, -, hb⟩ := List.mem_map.mp hcopied
  obtain ⟨k, hk, -⟩ := bind_eq_ok.mp hb.symm
  exact Indexing.resolve_ne_ok hlarge hsize index k hk

theorem exists_fill_iff (hshape : x.shape = before ++ size :: after) (hcounted : x.shape.Counted)
    (hsize : size < sizeLimit) (hrange : ∀ i ∈ indices.data, Indexing.InRange size i)
    (hout : out.shape = before ++ indices.shape ++ after) :
    (∃ y, fill x indices before.length out = .ok y) ↔ after.Counted ∧
      Resolvable before size indices := by
  rw [fill_eq hshape hcounted]
  constructor
  · rintro ⟨y, hy⟩
    split_ifs at hy with hafter
    obtain ⟨bs, hbs, -⟩ := Tensor.data_writeBlocks hy
    exact ⟨hafter, resolvable_of_copied hsize hbs⟩
  · rintro ⟨hafter, hresolvable⟩
    have hmid : indices.shape.volume = (places size indices).length := by
      rw [places, List.length_map, indices.length_data]
    rw [if_pos hafter, copied_eq hresolvable hrange]
    obtain ⟨y, hy, -⟩ :=
      Tensor.writeBlocks_slices (ε := OpError) hshape (places_lt hrange) hmid hout
    exact ⟨y, hy⟩

/-- A tensor of the slices that the indices denote: a position leads to the index at its middle
coordinates, and from there to the place along the axis. -/
structure Slices (x : Tensor α) (indices : Tensor Int64) (before : Shape) (size : Nat)
  (after : Shape)
    (y : Tensor α) : Prop where
  shape_eq : y.shape = before ++ indices.shape ++ after
  get?_eq : ∀ p j s : Index, List.Forall₂ (· < ·) p before → List.Forall₂ (· < ·) j indices.shape →
    List.Forall₂ (· < ·) s after →
      y.get? (p ++ j ++ s) = x.get? (p ++ Indexing.position size ((indices.get? j).getD 0) :: s)

theorem foldlM_pick_unknown (es : List SymElement) (n k : Nat) (w : SymTensor) :
    ((List.replicate n SymElement.unknown).zipIdx k).foldlM (pick es) w = .ok w := by
  induction n generalizing k with
  | zero => rfl
  | succ n ih =>
    rw [List.replicate_succ, List.zipIdx_cons, List.foldlM_cons]
    exact ih (k + 1)

theorem infer_shapeOnly {op : Gather} {v : Value} (hshape : v.shape = before ++ size :: after)
    (hdim : Axis.resolve v.shape.length op.axis = .ok before.length) :
    ∃ w, op.infer [some v.toShapeOnly, some (Value.int indices).toShapeOnly] = .ok [w] ∧
      w.dtype = v.dtype ∧ w.shape = .ofShape (before ++ indices.shape ++ after) := by
  have hrule : op.infer [some v.toShapeOnly, some (Value.int indices).toShapeOnly] =
      op.result v.toShapeOnly (Value.int indices).toShapeOnly (v.shape.map .ofSize)
        (indices.shape.map .ofSize) := rfl
  have hexists : ∃ ws, op.result v.toShapeOnly (Value.int indices).toShapeOnly (v.shape.map .ofSize)
      (indices.shape.map .ofSize) = .ok ws := by
    have helements : ∀ u : Value, u.toShapeOnly.elements = none ∨
        ∃ n, u.toShapeOnly.elements = some (List.replicate n .unknown) := by
      intro u
      cases hcount : SymTensor.trackedCount (.ofShape u.shape) with
      | none => exact .inl (by rw [Value.toShapeOnly, SymTensor.ofShape, hcount]; rfl)
      | some n => exact .inr ⟨n, by rw [Value.toShapeOnly, SymTensor.ofShape, hcount]; rfl⟩
    rw [result, List.length_map, hdim, ok_bind]
    rcases helements v with hx | ⟨m, hx⟩ <;> rcases helements (.int indices) with ht | ⟨n, ht⟩ <;>
      rw [hx, ht]
    · exact ⟨_, rfl⟩
    · exact ⟨_, rfl⟩
    · exact ⟨_, rfl⟩
    · dsimp only
      rw [foldlM_pick_unknown]
      split_ifs <;> exact ⟨_, rfl⟩
  obtain ⟨ws, hws⟩ := hexists
  obtain ⟨dim, w, hdim', rfl, hdtype, hwshape⟩ := result_ok hws
  rw [List.length_map] at hdim'
  cases hdim.symm.trans hdim'
  refine ⟨w, hrule.trans hws, hdtype, ?_⟩
  rw [hwshape, ← List.map_take, ← List.map_drop, hshape, List.take_left, Shape.drop_append_cons,
    ← List.map_append, ← List.map_append]
  rfl

theorem slices_of_fill (hshape : x.shape = before ++ size :: after) (hcounted : x.shape.Counted)
    (hsize : size < sizeLimit) (hrange : ∀ i ∈ indices.data, Indexing.InRange size i)
    (hout : out.shape = before ++ indices.shape ++ after)
    (h : fill x indices before.length out = .ok y) :
    Slices x indices before size after y ∧
      ∃ bs : List (List α), copied x indices before.volume size after.volume = bs.map .ok ∧
      y.data = bs.flatten := by
  obtain ⟨hafter, hresolvable⟩ := (exists_fill_iff hshape hcounted hsize hrange hout).mp ⟨y, h⟩
  have hmid : indices.shape.volume = (places size indices).length := by
    rw [places, List.length_map, indices.length_data]
  have hplaces := places_lt hrange
  have hcopied := copied_eq (x := x) hresolvable hrange after.volume
  obtain ⟨u, hu, hkept, hdata⟩ := Tensor.writeBlocks_slices (ε := OpError) hshape hplaces hmid hout
  rw [fill_eq hshape hcounted, if_pos hafter, hcopied, hu] at h
  cases h
  refine ⟨⟨hkept.trans hout, fun p j s hp hj hs => ?_⟩, _,
    hcopied.trans (Tensor.slices_eq hshape hplaces), hdata⟩
  obtain ⟨i, hi⟩ := Option.isSome_iff_exists.mp (Tensor.isSome_get?_iff.mpr hj)
  rw [hi, Option.getD_some]
  rw [Tensor.get?_of_lt hj] at hi
  exact Tensor.get?_of_runs hshape hplaces hmid (hkept.trans hout) hdata hp hj hs
    (by rw [places, List.getElem?_map, hi, Option.map_some])

end Gather

namespace Compress

variable {x y out : Tensor α} {before after : Shape} {size : Nat} {ks : List Nat}

/-- Whether a list is that of the places where a condition is not zero, in increasing order. -/
structure Chosen (condition : List Int64) (ks : List Nat) : Prop where
  increasing : ks.Pairwise (· < ·)
  mem_iff : ∀ k, k ∈ ks ↔ ∃ c, condition[k]? = some c ∧ c ≠ 0

theorem chosen_selected (condition : List Int64) : Chosen condition (selected condition) := by
  constructor
  · have hplaces : condition.zipIdx.Pairwise fun a b => a.2 < b.2 := by
      have hrange := List.pairwise_lt_range' (s := 0) (n := condition.length)
      rwa [← List.zipIdx_map_snd, List.pairwise_map] at hrange
    refine List.Pairwise.filterMap _ (fun a b hab i hi j hj => ?_) hplaces
    obtain ⟨-, rfl⟩ : a.1 ≠ 0 ∧ a.2 = i := by simpa using hi
    obtain ⟨-, rfl⟩ : b.1 ≠ 0 ∧ b.2 = j := by simpa using hj
    exact hab
  · intro k
    rw [selected, List.mem_filterMap]
    constructor
    · rintro ⟨⟨c, i⟩, hmem, hk⟩
      obtain ⟨hc, rfl⟩ : c ≠ 0 ∧ i = k := by simpa using hk
      exact ⟨c, List.mem_zipIdx_iff_getElem?.mp hmem, hc⟩
    · rintro ⟨c, hread, hc⟩
      exact ⟨(c, k), List.mem_zipIdx_iff_getElem?.mpr hread, by simp [hc]⟩

theorem Chosen.lt {condition : List Int64} (h : Chosen condition ks) :
    ∀ k ∈ ks, k < condition.length := by
  intro k hk
  obtain ⟨c, hread, -⟩ := (h.mem_iff k).mp hk
  exact (List.getElem?_eq_some_iff.mp hread).1

def positions (ks : List Nat) : Tensor Int64 := .ofList (ks.map intOfSize)

/-- Places that are taken as indices copy the runs at them. -/
theorem copied_positions (hresolvable : Gather.Resolvable before size (positions ks))
    (hks : ∀ k ∈ ks, k < size) (inner : Nat) :
    Gather.copied x (positions ks) before.volume size inner =
      x.slices before.volume size inner ks := by
  refine List.flatMap_congr fun i hi => ?_
  have hdata : (positions ks).data = ks.map intOfSize := rfl
  rw [hdata, List.map_map]
  refine List.map_congr_left fun k hk => ?_
  have hsize := hresolvable.size_lt (List.mem_range.mp hi) (hdata ▸ List.mem_map_of_mem hk)
  have hvalue := toInt_intOfSize ((hks k hk).trans hsize)
  have hrange : Indexing.InRange size (intOfSize k) := by
    rw [Indexing.InRange, hvalue]
    have := hks k hk
    omega
  have hposition : Indexing.position size (intOfSize k) = k := by
    rw [Indexing.position, hvalue, if_neg (by omega), Int.toNat_natCast]
  rw [Function.comp_apply, hrange.resolve_eq_ok hsize, ok_bind, hposition]

/-- Slices are selected as by the indices of the places where the condition is not zero. -/
theorem fill_eq_gather {condition : List Int64} (hshape : x.shape = before ++ size :: after)
    (hcounted : x.shape.Counted) (hlong : condition.length ≤ size)
    (hresolvable : Gather.Resolvable before size (positions (selected condition))) :
    fill x condition (some before.length) out =
      Gather.fill x (positions (selected condition)) before.length out := by
  have hks : ∀ k ∈ selected condition, k < size := fun k hk =>
    ((chosen_selected condition).lt k hk).trans_le hlong
  rw [Gather.fill_eq hshape hcounted, copied_positions hresolvable hks, fill]
  dsimp only
  rw [Tensor.outerInner_eq hshape hcounted, Tensor.size_eq_ok_of_shape hshape]
  split_ifs <;> rfl

theorem forall₂_elements {xs : List α} (h : ∀ k ∈ ks, k < xs.length) :
    List.Forall₂ (fun k a => xs[k]? = some a) ks (ks.map fun k => (xs.drop k).take 1).flatten := by
  induction ks with
  | nil => exact .nil
  | cons k ks ih =>
    rw [List.forall_mem_cons] at h
    rw [List.map_cons, List.flatten_cons, List.take_one_drop_eq_of_lt_length h.1,
      List.singleton_append]
    exact .cons (List.getElem?_eq_getElem h.1) (ih h.2)

/-- Elements are selected as by the indices into the flattened tensor. -/
theorem fill_none_eq_gather {condition : List Int64} (hlong : condition.length ≤ x.data.length)
    (hcount : x.data.length < intLimit) (hout : out.shape = [(selected condition).length]) :
    ∃ y, (fill x condition none out : Outcome OpError (Tensor α)) = .ok y ∧
      Gather.fill (.ofList x.data) (positions (selected condition)) 0 out = .ok y := by
  have hks : ∀ k ∈ selected condition, k < x.data.length := fun k hk =>
    ((chosen_selected condition).lt k hk).trans_le hlong
  have hshape : (Tensor.ofList x.data).shape = [] ++ x.data.length :: [] := rfl
  have hcounted : (Tensor.ofList x.data).shape.Counted := by
    intro front hfront
    rcases List.prefix_cons_iff.mp hfront with rfl | ⟨rest, rfl, hrest⟩
    · decide
    · rw [List.prefix_nil.mp hrest, List.prod_singleton]
      exact hcount.trans (by decide)
  have hmid : Shape.volume [(selected condition).length] = (selected condition).length :=
    Nat.mul_one _
  obtain ⟨y, hy, hkept, hdata⟩ := Tensor.writeBlocks_slices (ε := OpError) hshape hks hmid hout
  have hgather : Gather.fill (.ofList x.data) (positions (selected condition)) 0 out = .ok y := by
    refine (Gather.fill_eq hshape hcounted).trans ?_
    rw [if_pos (by decide), copied_positions (.inl hcount) hks]
    exact hy
  refine ⟨y, ?_, hgather⟩
  have hreads : List.Forall₂ (fun k a => (ofOption x.data[k]? : Outcome OpError α) = .ok a)
      (selected condition)
      y.data := by
    have hruns : (Tensor.ofList x.data).runs (Shape.volume []) x.data.length (Shape.volume [])
        (selected condition) = (selected condition).map fun k => (x.data.drop k).take 1 := by
      simp [Tensor.runs, Tensor.ofList, Shape.volume]
    rw [hdata, hruns]
    exact (forall₂_elements hks).imp fun k a ha => by rw [ha, ofOption_some]
  have htake : (selected condition).take out.count = selected condition := by
    rw [Tensor.count_eq, hout, hmid, List.take_length]
  rw [fill, htake, mapM_eq_ok.mpr hreads, ok_bind]
  exact congrArg Outcome.ok (Tensor.overwrite_eq hkept.symm)

/-- A condition that is not longer than the axis, or than the flattened tensor, tells the shape by
the number of its places. -/
theorem outputTypes_eq_ok {op : Compress} {v : Value} {condition : Tensor Int64} {n : Nat}
    {dim : Option Nat} (hdim : op.dim? v = .ok dim) (hcondition : condition.shape = [n])
    (hlong : n ≤ dim.elim v.count (v.shape.getD · 0)) :
    op.outputTypes [some v, some (.int condition)] =
      .ok [⟨v.dtype, dim.elim [(selected condition.data).length]
        (v.shape.set · (selected condition.data).length)⟩] := by
  have hrank : ¬condition.rank ≠ 1 := by simp [Tensor.rank, hcondition]
  have hcount : ¬condition.count > dim.elim v.count (v.shape.getD · 0) := by
    rw [Tensor.count_eq, hcondition, Shape.volume, Shape.volume, Nat.mul_one]
    exact hlong.not_gt
  have hrule : op.outputTypes [some v, some (.int condition)] =
      (refuseIf (condition.rank ≠ 1) (.rank .conditionRank) >>= fun _ => op.dim? v >>= fun dim =>
        refuseIf (condition.count > dim.elim v.count (v.shape.getD · 0)) (.value .longCondition) >>=
          fun _ =>
          .ok [⟨v.dtype, dim.elim [(selected condition.data).length]
            (v.shape.set · (selected condition.data).length)⟩]) := rfl
  rw [hrule, refuseIf_neg hrank, ok_bind, hdim, ok_bind, refuseIf_neg hcount, ok_bind]

end Compress

section

variable [Value.Stored α] [Value.Stored.Covered α]

open Value.Stored

/-- Slices are picked along an axis by indices in range, and where a condition that is not longer
than the axis is not zero. The rule for indices puts their shape in place of the axis. Into any
output of this shape the runs are copied if the sizes behind the axis can be counted and signed
64-bit integers hold the size of the axis, unless no index is met at all; otherwise nothing is. The
runs that are copied, one behind the other, are then the whole output, and each position of it
reads the slice that its index denotes. A condition gives the type and the elements that the
indices of its places do, along an axis or, if none is given, in the flattened tensor. -/
theorem Gather.copies_iff {x : Tensor α} {before after : Shape} {size : Nat} {axis : Int64}
    (hx : (wrap x).Held) (hshape : x.shape = before ++ size :: after)
    (hdim : Axis.resolve x.shape.length axis = .ok before.length) :
    (∀ indices : Tensor Int64, (∀ i ∈ indices.data, Indexing.InRange size i) →
      (∃ w, infer ⟨axis⟩ [some (wrap x).toShapeOnly, some (Value.int indices).toShapeOnly] =
      .ok [w] ∧
        w.dtype = (wrap x).dtype ∧ w.shape = .ofShape (before ++ indices.shape ++ after)) ∧
      ∀ out : Tensor α, out.shape = before ++ indices.shape ++ after →
        ((∃ y, fill x indices before.length out = .ok y) ↔ after.Counted ∧
        Resolvable before size indices) ∧
        ∀ y, fill x indices before.length out = .ok y → Slices x indices before size after y ∧
          ∃ bs : List (List α), copied x indices before.volume size after.volume = bs.map .ok ∧
            fill x indices before.length out =
            out.writeBlocks (copied x indices before.volume size after.volume) ∧
              y.data = bs.flatten) ∧
    ∀ (condition : Tensor Int64) (n : Nat), condition.shape = [n] →
      ∃ ks, Compress.Chosen condition.data ks ∧
        (n ≤ size → Compress.outputTypes ⟨some axis⟩ [some (wrap x), some (.int condition)] =
            .ok [⟨(wrap x).dtype, before ++ ks.length :: after⟩] ∧
          (Resolvable before size (Compress.positions ks) → ∀ out : Tensor α,
            Compress.fill x condition.data (some before.length) out =
              fill x (Compress.positions ks) before.length out)) ∧
        (n ≤ x.count → Compress.outputTypes ⟨none⟩ [some (wrap x), some (.int condition)] =
            .ok [⟨(wrap x).dtype, [ks.length]⟩] ∧
          ∀ out : Tensor α, out.shape = [ks.length] →
            ∃ y, Compress.fill x condition.data none out = (.ok y : Outcome OpError (Tensor α)) ∧
              fill (.ofList x.data) (Compress.positions ks) 0 out = .ok y) := by
  have hwrapped : (wrap x).shape = before ++ size :: after := (Lawful.shape_wrap x).trans hshape
  have hcounted : x.shape.Counted := Lawful.shape_wrap x ▸ hx.counted
  have hsize : size < sizeLimit :=
    hx.sizes size (hwrapped ▸ List.mem_append_right _ List.mem_cons_self)
  have hdim' : Axis.resolve (wrap x).shape.length axis = .ok before.length := by
    rwa [Lawful.shape_wrap]
  refine ⟨fun indices hrange =>
    ⟨infer_shapeOnly hwrapped hdim', fun out hout => ⟨?_, fun y hy => ?_⟩⟩,
    fun condition n hcondition =>
      ⟨_, Compress.chosen_selected condition.data, fun hlong => ⟨?_, ?_⟩,
      fun hlong => ⟨?_, ?_⟩⟩⟩
  · exact exists_fill_iff hshape hcounted hsize hrange hout
  · obtain ⟨hslices, bs, hbs, hdata⟩ := slices_of_fill hshape hcounted hsize hrange hout hy
    have hafter := ((exists_fill_iff hshape hcounted hsize hrange hout).mp ⟨y, hy⟩).1
    exact ⟨hslices, bs, hbs, by rw [fill_eq hshape hcounted, if_pos hafter], hdata⟩
  · have hchosen : Compress.dim? ⟨some axis⟩ (wrap x) = .ok (some before.length) := by
      have hrule : Compress.dim? ⟨some axis⟩ (wrap x) =
          (Axis.resolve (wrap x).shape.length axis).mapError OpError.ofRule >>= fun d =>
            .ok (some d) := rfl
      rw [hrule, hdim']
      rfl
    have hlimit : n ≤ (some before.length).elim (wrap x).count ((wrap x).shape.getD · 0) := by
      simpa [hwrapped] using hlong
    rw [Compress.outputTypes_eq_ok hchosen hcondition hlimit]
    simp [hwrapped]
  · intro hresolvable out
    refine Compress.fill_eq_gather hshape hcounted ?_ hresolvable
    rwa [condition.length_data, hcondition, Shape.volume, Shape.volume, Nat.mul_one]
  · have hcount : (wrap x).count = x.count := by
      rw [Value.count_eq_volume, Lawful.shape_wrap, Tensor.count_eq]
    have hlimit : n ≤ (none : Option Nat).elim (wrap x).count ((wrap x).shape.getD · 0) := by
      rwa [Option.elim_none, hcount]
    exact Compress.outputTypes_eq_ok rfl hcondition hlimit
  · have hcount : x.data.length < intLimit := by
      have hbytes := hx.count_lt
      rwa [Value.count_eq_volume, Lawful.shape_wrap, ← x.length_data] at hbytes
    intro out hout
    refine Compress.fill_none_eq_gather ?_ hcount hout
    rwa [condition.length_data, hcondition, Shape.volume, Shape.volume, Nat.mul_one]

/-- Two of three rows, one of them counted from the end, and the rows where a condition is not
zero. -/
theorem Gather.copies_iff_rows :
    (∃ y, fill (⟨[3, 2], [1, 2, 3, 4, 5, 6], rfl⟩ : Tensor Int64) ⟨[2], [2, -3], rfl⟩ 0
        ⟨[2, 2], [0, 0, 0, 0], rfl⟩ = .ok y ∧ y.get? [0, 1] = some 6 ∧ y.get? [1, 0] = some 1) ∧
    ∃ ks, Compress.Chosen [0, 7] ks ∧
      Compress.fill (⟨[3, 2], [1, 2, 3, 4, 5, 6], rfl⟩ : Tensor Int64) [0, 7] (some 0)
      ⟨[1, 2], [0, 0], rfl⟩ =
        fill ⟨[3, 2], [1, 2, 3, 4, 5, 6], rfl⟩ (Compress.positions ks) 0 ⟨[1, 2], [0, 0], rfl⟩ := by
  have hx : (wrap (⟨[3, 2], [1, 2, 3, 4, 5, 6], rfl⟩ : Tensor Int64)).Held := by decide
  have hshape : [3, 2] = ([] : Shape) ++ 3 :: [2] := rfl
  have hdim : Axis.resolve 2 0 = .ok ([] : Shape).length := by decide
  obtain ⟨hindices, hcondition⟩ := copies_iff hx hshape hdim
  constructor
  · have hrange : ∀ i ∈ [(2 : Int64), -3], Indexing.InRange 3 i := by simp; decide
    obtain ⟨-, hrun⟩ := hindices ⟨[2], [2, -3], rfl⟩ hrange
    obtain ⟨hexists, hslices⟩ := hrun ⟨[2, 2], [0, 0, 0, 0], rfl⟩ rfl
    obtain ⟨y, hy⟩ := hexists.mpr ⟨by decide, .inl (by decide)⟩
    obtain ⟨hread, -⟩ := hslices y hy
    refine ⟨y, hy, ?_, ?_⟩
    · exact (hread.get?_eq [] [0] [1] (by decide) (by decide) (by decide)).trans (by decide)
    · exact (hread.get?_eq [] [1] [0] (by decide) (by decide) (by decide)).trans (by decide)
  · obtain ⟨ks, hks, hcompress, -⟩ := hcondition ⟨[2], [0, 7], rfl⟩ 2 rfl
    exact ⟨ks, hks, (hcompress (by decide)).2 (.inl (by decide)) _⟩

/-- The sizes behind the axis overflow though the tensor is empty, and an index into an axis that
signed 64-bit integers do not hold is refused though there is nothing to copy. -/
theorem Gather.copies_fault_empty :
    (Value.int ⟨[0, 1, 2 ^ 32, 2 ^ 32], [], rfl⟩).Held ∧ Indexing.InRange 1 0 ∧
    Chain.reference.apply (.gather ⟨1⟩)
        [some (.int ⟨[0, 1, 2 ^ 32, 2 ^ 32], [], rfl⟩), some (.int ⟨[1], [0], rfl⟩)] = .fault ∧
    Chain.reference.apply (.compress ⟨some 1⟩)
        [some (.int ⟨[0, 1, 2 ^ 32, 2 ^ 32], [], rfl⟩), some (.int ⟨[1], [1], rfl⟩)] = .fault ∧
    (Value.int ⟨[2 ^ 63, 0], [], rfl⟩).Held ∧ Indexing.InRange (2 ^ 63) 0 ∧
    Chain.reference.apply (.gather ⟨0⟩) [some (.int ⟨[2 ^ 63, 0], [], rfl⟩),
      some (.int ⟨[1], [0], rfl⟩)] =
      .error (.value .indexRange) ∧
    Chain.reference.apply (.compress ⟨some 0⟩)
        [some (.int ⟨[2 ^ 63, 0], [], rfl⟩), some (.int ⟨[1], [1], rfl⟩)] =
        .ok [.int ⟨[1, 0], [], rfl⟩] := by
  refine ⟨by decide, by decide, by decide +kernel, by decide +kernel, by decide, by decide,
    by decide +kernel, by decide +kernel⟩

end

end TensorGraph
