import TensorGraph.Proofs.Applying
import TensorGraph.Proofs.AxisPads
import TensorGraph.Proofs.ReducedShapes

/-! Dimensions of size one that are inserted and removed again at the same axes. The axes are
resolved against the larger rank both times, so that a shape with ones inserted is cut at the
places where they stand. -/

namespace TensorGraph

open Outcome

variable {α β : Type} {a : α} {dims : List Nat} {k n rank : Nat} {xs zs : List α}

/-- A list `zs` which is `a` at the given places, counted from `k` on, and lists `xs` at the
others. -/
inductive Inserted (a : α) (dims : List Nat) : Nat → List α → List α → Prop
  | nil (k : Nat) : Inserted a dims k [] []
  | new {k : Nat} {xs zs : List α} : k ∈ dims → Inserted a dims (k + 1) xs zs →
    Inserted a dims k xs (a :: zs)
  | old {k : Nat} {x : α} {xs zs : List α} : k ∉ dims → Inserted a dims (k + 1) xs zs →
      Inserted a dims k (x :: xs) (x :: zs)

/-- How many of `n` places from `k` on are not among the given ones. -/
def freePlaces (dims : List Nat) (k n : Nat) : Nat :=
  ((List.range' k n).filter fun i => !dims.contains i).length

theorem freePlaces_succ (dims : List Nat) (k n : Nat) :
    freePlaces dims k (n + 1) = freePlaces dims (k + 1) n + if k ∈ dims then 0 else 1 := by
  by_cases hk : k ∈ dims <;> simp [freePlaces, List.range'_succ, hk]

theorem freePlaces_eq (hnodup : dims.Nodup) (hlt : ∀ k ∈ dims, k < n) :
    freePlaces dims 0 n = n - dims.length := by
  rw [freePlaces, ← List.range_eq_range', length_filter_range hnodup hlt]

namespace Inserted

theorem dropFrom_eq (h : Inserted a dims k xs zs) : dropFrom dims k zs = xs := by
  induction h with
  | nil => rfl
  | new hk _ ih => rw [dropFrom_cons, if_pos hk, ih]
  | old hk _ ih => rw [dropFrom_cons, if_neg hk, ih]

theorem length_eq (h : Inserted a dims k xs zs) : xs.length = freePlaces dims k zs.length := by
  induction h with
  | nil => rfl
  | new hk _ ih => simp [freePlaces_succ, hk, ih]
  | old hk _ ih => simp [freePlaces_succ, hk, ih]

theorem map (f : α → β) (h : Inserted a dims k xs zs) :
    Inserted (f a) dims k (xs.map f) (zs.map f) := by
  induction h with
  | nil k => exact .nil k
  | new hk _ ih => exact .new hk ih
  | old hk _ ih => exact .old hk ih

theorem getElem?_new (h : Inserted a dims k xs zs) {i : Nat} (hi : k + i ∈ dims)
    (hlt : i < zs.length) :
    zs[i]? = some a := by
  induction h generalizing i with
  | nil => simp at hlt
  | new hk _ ih =>
    cases i with
    | zero => rfl
    | succ i => exact ih (by rwa [Nat.add_right_comm]) (by simpa using hlt)
  | old hk _ ih =>
    cases i with
    | zero => exact absurd hi hk
    | succ i => exact ih (by rwa [Nat.add_right_comm]) (by simpa using hlt)

/-- There is such a list where as many places are free as there are entries. -/
theorem exists_of_length (a : α) (h : xs.length = freePlaces dims k n) :
    ∃ zs, Inserted a dims k xs zs ∧ zs.length = n := by
  induction n generalizing k xs with
  | zero =>
    obtain rfl := List.length_eq_zero_iff.mp h
    exact ⟨[], .nil k, rfl⟩
  | succ n ih =>
    rw [freePlaces_succ] at h
    by_cases hk : k ∈ dims
    · rw [if_pos hk] at h
      obtain ⟨zs, hzs, rfl⟩ := ih h
      exact ⟨a :: zs, .new hk hzs, rfl⟩
    · rw [if_neg hk] at h
      obtain ⟨x, xs, rfl⟩ := List.exists_cons_of_length_eq_add_one h
      obtain ⟨zs, hzs, rfl⟩ := ih (by simpa using h)
      exact ⟨x :: zs, .old hk hzs, rfl⟩

/-- A list which is `a` at the given places comes from what is left without them. -/
theorem of_dropFrom (h : ∀ i x, k + i ∈ dims → zs[i]? = some x → x = a) :
    Inserted a dims k (dropFrom dims k zs) zs := by
  induction zs generalizing k with
  | nil => exact .nil k
  | cons z zs ih =>
    have hrest :=
      ih (k := k + 1) fun i x hi hx => h (i + 1) x (by rwa [Nat.add_right_comm] at hi) hx
    rw [dropFrom_cons]
    by_cases hk : k ∈ dims
    · obtain rfl := h 0 z hk rfl
      simpa only [hk, if_true] using .new hk hrest
    · simpa only [hk, if_false] using .old hk hrest

end Inserted

namespace Axis

variable {axis : Int64} {axes : List Int64}

/-- Whether axes denote dimensions, no two of them the same. -/
def Distinct (rank : Nat) (axes : List Int64) : Prop :=
  ∃ dims, List.Forall₂ (Denotes rank) axes dims ∧ dims.Nodup

theorem Denotes.unique {l : Nat} (h : Denotes rank axis k) (h' : Denotes rank axis l) : k = l := by
  obtain ⟨hk, hk'⟩ := h
  obtain ⟨hl, hl'⟩ := h'
  omega

theorem denotes_of_resolve (hrank : rank < intLimit) (h : resolve rank axis = .ok k) :
    Denotes rank axis k := by
  have htop := toInt_intOfSize hrank
  have hlt := resolve_lt h
  simp only [resolve, ite_bind] at h
  obtain ⟨n, hn, h⟩ := bind_eq_ok.mp h
  split_ifs at h with hrange
  rw [not_or, Int64.lt_iff_toInt_lt, Int64.toInt_zero, not_lt] at hrange
  obtain rfl : n.toInt.toNat = k := by
    rw [← sizeOfInt_of_nonneg (Int64.le_iff_toInt_le.mpr hrange.1)]
    exact ok.inj h
  refine ⟨hlt, ?_⟩
  split_ifs at hn with hneg
  · have hvalue := toInt_of_checkInt hn
    omega
  · obtain rfl := ok.inj hn
    omega

/-- Axes are accepted just if they denote different dimensions. -/
theorem exists_resolveAll_iff (hrank : rank < intLimit) :
    (∃ dims, resolveAll rank axes = .ok dims) ↔ Distinct rank axes := by
  constructor
  · rintro ⟨dims, h⟩
    obtain ⟨ks, hks, h⟩ := bind_eq_ok.mp h
    obtain ⟨_, hdups, -⟩ := bind_eq_ok.mp h
    have hnodup : ks.mergeSort.Nodup :=
      nodup_of_length_eraseDups (not_not.mp (refuseIf_eq_ok.mp hdups))
    exact ⟨ks, (mapM_eq_ok.mp hks).imp fun _ _ hk => denotes_of_resolve hrank hk,
      (List.mergeSort_perm ks _).nodup_iff.mp hnodup⟩
  · rintro ⟨dims, hdims, hnodup⟩
    exact ⟨_, resolveAll_eq_ok hdims hnodup hrank⟩

theorem mem_resolveAll (hrank : rank < intLimit) (h : resolveAll rank axes = .ok dims) :
    k ∈ dims ↔ ∃ a ∈ axes, Denotes rank a k := by
  obtain ⟨ks, hks, h⟩ := bind_eq_ok.mp h
  obtain ⟨_, -, h⟩ := bind_eq_ok.mp h
  cases h
  rw [List.mem_mergeSort]
  constructor
  · intro hk
    obtain ⟨axis, haxis, hresolve⟩ := Related.of_mem_right (mapM_eq_ok.mp hks) hk
    exact ⟨axis, haxis, denotes_of_resolve hrank hresolve⟩
  · rintro ⟨axis, haxis, hdenotes⟩
    obtain ⟨l, hl, hresolve⟩ := Related.of_mem_right (mapM_eq_ok.mp hks).flip haxis
    rwa [hdenotes.unique (denotes_of_resolve hrank hresolve)]

end Axis

theorem entries_of_room (h : rank * SymDim.bytes < byteLimit) :
    rank * Shape.entryBytes < byteLimit := by
  unfold SymDim.bytes at h
  unfold Shape.entryBytes
  omega

theorem lt_of_room (h : rank * SymDim.bytes < byteLimit) : rank < intLimit :=
  (Value.lt_of_listed (entries_of_room h)).trans (by decide)

namespace Inserted

variable {axes : List Int64}

/-- Axes add as many places as there are axes. -/
theorem length_of_resolveAll (h : Inserted a dims 0 xs zs)
    (hdims : Axis.resolveAll zs.length axes = .ok dims) :
    zs.length = xs.length + axes.length := by
  obtain ⟨hcount, hnodup, hlt⟩ := Axis.resolveAll_ok hdims
  have hle : dims.length ≤ zs.length := by
    have hsub : dims ⊆ List.range zs.length := fun k hk => List.mem_range.mpr (hlt k hk)
    simpa using (hnodup.subperm hsub).length_le
  have hlength := h.length_eq
  rw [freePlaces_eq hnodup hlt] at hlength
  omega

theorem exists_of_resolveAll (a : α) (xs : List α)
    (hdims : Axis.resolveAll (xs.length + axes.length) axes = .ok dims) :
    ∃ zs, Inserted a dims 0 xs zs ∧ zs.length = xs.length + axes.length := by
  obtain ⟨hcount, hnodup, hlt⟩ := Axis.resolveAll_ok hdims
  refine exists_of_length a ?_
  rw [freePlaces_eq hnodup hlt, hcount, Nat.add_sub_cancel]

/-- A list which is `a` along different axes comes from what is left without these. -/
theorem exists_of_ones (hroom : zs.length * SymDim.bytes < byteLimit)
    (hdistinct : Axis.Distinct zs.length axes)
    (hones : ∀ axis ∈ axes, ∀ k, Axis.Denotes zs.length axis k → zs[k]? = some a) :
    ∃ dims, Axis.resolveAll zs.length axes = .ok dims ∧
      Inserted a dims 0 (dropFrom dims 0 zs) zs := by
  have hrank := lt_of_room hroom
  obtain ⟨dims, hdims⟩ := (Axis.exists_resolveAll_iff hrank).mpr hdistinct
  refine ⟨dims, hdims, of_dropFrom fun i x hi hx => ?_⟩
  rw [Nat.zero_add] at hi
  obtain ⟨axis, haxis, hdenotes⟩ := (Axis.mem_resolveAll hrank hdims).mp hi
  exact Option.some.inj (hx.symm.trans (hones axis haxis i hdenotes))

theorem oneAt {s t : Shape} (h : Inserted 1 dims 0 s t) : OneAt dims 0 t := by
  intro i size hi hsize
  have hlt := (List.getElem?_eq_some_iff.mp hsize).1
  rw [h.getElem?_new hi hlt] at hsize
  exact (Option.some.inj hsize).symm

theorem volume_eq {s t : Shape} (h : Inserted 1 dims 0 s t) : t.volume = s.volume := by
  rw [Shape.volume_eq_prod, Shape.volume_eq_prod, ← prod_dropFrom h.oneAt, h.dropFrom_eq]

theorem exists_tensor {x : Tensor α}
    (hdims : Axis.resolveAll (x.shape.length + axes.length) axes = .ok dims) :
    ∃ y : Tensor α, Inserted 1 dims 0 x.shape y.shape ∧ y.data = x.data ∧
      y.shape.length = x.shape.length + axes.length := by
  obtain ⟨t, ht, hlength⟩ := exists_of_resolveAll 1 x.shape hdims
  exact ⟨⟨t, x.data, x.length_data.trans ht.volume_eq.symm⟩, ht, rfl, hlength⟩

/-- What holds of the inserted entry holds of all entries just if it holds of the others. -/
theorem forall_mem_iff {P : α → Prop} (h : Inserted a dims k xs zs) (ha : P a) :
    (∀ z ∈ zs, P z) ↔ ∀ x ∈ xs, P x := by
  induction h with
  | nil => rfl
  | new _ _ ih => simp [ha, ih]
  | old _ _ ih => simp [ih]

end Inserted

structure SymTensor.ListsInts (t : SymTensor) (ns : List Int64) : Prop where
  vector : t.demandIntVector = .ok ()
  ints : t.ints? = some ns

theorem Operator.listsInts_told (op : Operator) {i : Nat} (hi : op.valueInputs.contains i = true)
    (ns : List Int64) :
    (op.told i (.int (.ofList ns))).ListsInts ns := by
  refine ⟨?_, ints?_told hi le_rfl⟩
  simp [SymTensor.demandIntVector, SymShape.declareRank, SymShape.ofShape, Value.shape, Value.dtype,
    Tensor.ofList, refuseIf]

section Described

variable {x axes : SymTensor} {ds cs : List SymDim} {ns : List Int64}

theorem Squeeze.infer_inserted (hx : x.shape = .ranked cs) (haxes : axes.ListsInts ns)
    (hdims : Axis.resolveAll cs.length ns = .ok dims) (h : Inserted (.size 1) dims 0 ds cs) :
    infer [some x, some axes] = .ok [x.reshaped (.ranked ds)] := by
  have hones : ¬(dims.any fun k => (cs.getD k .unknown).value?.any (· ≠ 1)) = true := by
    rw [List.any_eq_true]
    rintro ⟨k, hk, hne⟩
    have hlt := (Axis.resolveAll_ok hdims).2.2 k hk
    have hget := h.getElem?_new (i := k) (by rwa [Nat.zero_add]) hlt
    simp [List.getD_eq_getElem?_getD, hget, SymDim.value?] at hne
  have hremove : remove cs ns = .ok (.ranked ds) := by
    rw [remove, hdims, ok_bind, refuseIf_neg hones, ok_bind, pure_eq, ok.injEq]
    exact congrArg SymShape.ranked (by simpa [dropFrom] using h.dropFrom_eq)
  simp [infer, SymInputs.demand, Inputs.find?, hx, outputShape, haxes.vector, haxes.ints, hremove]

theorem Unsqueeze.insertOnes_eq (h : Inserted (.size 1) dims k ds cs) :
    insertOnes dims cs.length k ds = cs := by
  induction h with
  | nil => rfl
  | new hk _ ih => simp [insertOnes, hk, ih]
  | old hk _ ih => simp [insertOnes, hk, ih]

theorem Unsqueeze.infer_eq_ok_iff (hx : x.shape = .ranked ds) (haxes : axes.ListsInts ns)
    {ys : List SymTensor} :
    infer [some x, some axes] = .ok ys ↔ ∃ dims cs, Axis.resolveAll cs.length ns = .ok dims ∧
      Inserted (.size 1) dims 0 ds cs ∧ cs.length * SymDim.bytes < byteLimit ∧
      ys = [x.reshaped (.ranked cs)] := by
  have hinfer : infer [some x, some axes] = (do
      let ones ← Axis.resolveAll (ds.length + ns.length) ns
      checkRoom (ds.length + ns.length) SymDim.bytes
      return [x.reshaped (.ranked (insertOnes ones (ds.length + ns.length) 0 ds))]) := by
    simp [infer, SymInputs.demand, Inputs.find?, hx, outputShape, haxes.vector, haxes.ints,
      bind_assoc]
  rw [hinfer]
  constructor
  · intro h
    obtain ⟨dims, hdims, h⟩ := bind_eq_ok.mp h
    obtain ⟨_, hroom, h⟩ := bind_eq_ok.mp h
    obtain ⟨cs, hcs, hlength⟩ := Inserted.exists_of_resolveAll (.size 1) ds hdims
    rw [← hlength] at hdims hroom
    rw [← hlength, insertOnes_eq hcs] at h
    exact ⟨dims, cs, hdims, hcs, demand_eq_ok.mp hroom, (ok.inj h).symm⟩
  · rintro ⟨dims, cs, hdims, hcs, hroom, rfl⟩
    rw [← hcs.length_of_resolveAll hdims]
    refine bind_eq_ok.mpr ⟨dims, hdims, bind_eq_ok.mpr ⟨(), demand_eq_ok.mpr hroom, ?_⟩⟩
    rw [insertOnes_eq hcs]
    rfl

theorem Unsqueeze.exists_infer_iff (hx : x.shape = .ranked ds) (haxes : axes.ListsInts ns) :
    (∃ ys, infer [some x, some axes] = .ok ys) ↔
      Axis.Distinct (ds.length + ns.length) ns ∧
      (ds.length + ns.length) * SymDim.bytes < byteLimit := by
  constructor
  · rintro ⟨ys, hys⟩
    obtain ⟨dims, cs, hdims, hcs, hroom, -⟩ := (infer_eq_ok_iff hx haxes).mp hys
    rw [← hcs.length_of_resolveAll hdims]
    exact ⟨(Axis.exists_resolveAll_iff (lt_of_room hroom)).mp ⟨dims, hdims⟩, hroom⟩
  · rintro ⟨hdistinct, hroom⟩
    obtain ⟨dims, hdims⟩ := (Axis.exists_resolveAll_iff (lt_of_room hroom)).mpr hdistinct
    obtain ⟨cs, hcs, hlength⟩ := Inserted.exists_of_resolveAll (.size 1) ds hdims
    rw [← hlength] at hdims hroom
    exact ⟨_, (infer_eq_ok_iff hx haxes).mpr ⟨dims, cs, hdims, hcs, hroom, rfl⟩⟩

theorem Squeeze.infer_unsqueezed (hx : x.shape = .ranked ds) (haxes : axes.ListsInts ns)
    {ys : List SymTensor}
    (h : Unsqueeze.infer [some x, some axes] = .ok ys) : ∃ y z cs, ys = [y] ∧
      y.shape = .ranked cs ∧ cs.length = ds.length + ns.length ∧
      (∀ axis ∈ ns, ∀ k, Axis.Denotes cs.length axis k → cs[k]? = some (.size 1)) ∧
      infer [some y, some axes] = .ok [z] ∧ z.dtype = x.dtype ∧ z.shape = .ranked ds := by
  obtain ⟨dims, cs, hdims, hcs, hroom, rfl⟩ := (Unsqueeze.infer_eq_ok_iff hx haxes).mp h
  refine ⟨_, _, cs, rfl, SymTensor.shape_reshaped _ _, hcs.length_of_resolveAll hdims,
    fun axis haxis k hk => ?_,
    infer_inserted (SymTensor.shape_reshaped _ _) haxes hdims hcs, by simp, by simp⟩
  have hmem : k ∈ dims := (Axis.mem_resolveAll (lt_of_room hroom) hdims).mpr ⟨axis, haxis, hk⟩
  exact hcs.getElem?_new (by rwa [Nat.zero_add]) hk.1

theorem Unsqueeze.infer_squeezed (hx : x.shape = .ranked ds) (haxes : axes.ListsInts ns)
    (hdistinct : Axis.Distinct ds.length ns)
    (hones : ∀ axis ∈ ns, ∀ k, Axis.Denotes ds.length axis k → ds[k]? = some (.size 1))
    (hroom : ds.length * SymDim.bytes < byteLimit) :
    ∃ y z, Squeeze.infer [some x, some axes] = .ok [y] ∧
      infer [some y, some axes] = .ok [z] ∧ z.dtype = x.dtype ∧ z.shape = .ranked ds := by
  obtain ⟨dims, hdims, hds⟩ := Inserted.exists_of_ones hroom hdistinct hones
  refine ⟨_, _, Squeeze.infer_inserted hx haxes hdims hds,
    (infer_eq_ok_iff (SymTensor.shape_reshaped _ _) haxes).mpr
    ⟨dims, ds, hdims, hds, hroom, rfl⟩, by simp, by simp⟩

end Described

namespace Reshaping

variable {inputs : ValueInputs} [Value.Stored α] [Value.Stored.Covered α] {x y z : Tensor α}

theorem run_eq (hx : Inputs.find? inputs 0 = some (Value.Stored.wrap x)) (hdata : y.data = x.data)
    (hz : z.shape = y.shape) :
    (prepare inputs [Value.Stored.wrap z] >>= fun k => k ()) =
      .ok (some [Value.Stored.wrap y]) := by
  have hprepare : prepare inputs [Value.Stored.wrap z] =
      .ok (Kernel.copy (Value.Stored.wrap x) (Value.Stored.wrap z)) := by
    rw [prepare, ValueInputs.demand, hx]
    rfl
  have hcount : x.count = z.count := by
    rw [Tensor.count, Tensor.count, z.length_data, hz, ← y.length_data, hdata]
  rw [hprepare, ok_bind, Kernel.copy, Value.Stored.Covered.sameType_wrap,
    refuseIf_neg (not_not.mpr hcount), ok_bind, ← hdata, Tensor.overwrite_eq hz]
  rfl

end Reshaping

section Concrete

variable [Value.Stored α] [Value.Stored.Covered α] {x y : Tensor α} {ns : List Int64}

theorem Value.held_wrap_iff : (Stored.wrap x).Held ↔ (∀ n ∈ x.shape, n < sizeLimit) ∧
    x.shape.length * Shape.entryBytes < byteLimit ∧ x.shape.Counted ∧
      (Stored.wrap x).bytes < byteLimit := by
  have hshape : (Stored.wrap x).shape = x.shape := Stored.Lawful.shape_wrap x
  constructor
  · rintro ⟨⟨hsizes, hrank⟩, hcounted, hroom⟩
    rw [hshape] at hsizes hrank hcounted
    exact ⟨hsizes, hrank, hcounted, hroom⟩
  · rintro ⟨hsizes, hrank, hcounted, hroom⟩
    exact ⟨⟨hshape ▸ hsizes, hshape ▸ hrank⟩, hshape ▸ hcounted, hroom⟩

/-- Memory holds a tensor with dimensions of size one inserted just if it holds the tensor, where
there is room for the longer shape. -/
theorem Inserted.held_iff (h : Inserted 1 dims 0 x.shape y.shape)
    (hrank : y.shape.length * Shape.entryBytes < byteLimit) :
    (Value.Stored.wrap y).Held ↔ (Value.Stored.wrap x).Held := by
  have hshape : ∀ t : Tensor α, (Value.Stored.wrap t).shape = t.shape :=
    Value.Stored.Lawful.shape_wrap
  have hbytes : (Value.Stored.wrap y).bytes = (Value.Stored.wrap x).bytes := by
    rw [Value.bytes, Value.bytes, Value.count_eq_volume, Value.count_eq_volume, hshape, hshape,
      h.volume_eq, Value.Stored.Covered.dtype_wrap y x]
  have hcounted : y.shape.Counted ↔ x.shape.Counted := by
    rw [← counted_dropFrom h.oneAt, h.dropFrom_eq]
  have hshort : x.shape.length * Shape.entryBytes < byteLimit := by
    have hle := length_dropFrom_le dims 0 y.shape
    rw [h.dropFrom_eq] at hle
    exact (Nat.mul_le_mul_right _ hle).trans_lt hrank
  rw [Value.held_wrap_iff, Value.held_wrap_iff, h.forall_mem_iff (P := (· < sizeLimit)) (by decide),
    hcounted, hbytes]
  simp [hrank, hshort]

theorem Operator.ranked_told (op : Operator) (i : Nat) (x : Tensor α) :
    (op.told i (Value.Stored.wrap x)).shape = .ranked (x.shape.map .ofSize) := by
  rw [shape_told, Value.Stored.Lawful.shape_wrap, SymShape.ofShape]

/-- Elements that stand in the same order under another shape. -/
theorem Chain.apply_reshaping {inputs : ValueInputs} {w : SymTensor} (op : Operator)
    (hx : Inputs.find? inputs 0 = some (Value.Stored.wrap x))
    (harity : op.demandArity inputs.length = .ok ())
    (hop : op.outputTypes inputs = op.inferredTypes inputs) (hcount : op.outputCount = 1)
    (hkernel : ∀ outputs, op.prepare .none inputs outputs = Reshaping.prepare inputs outputs)
    (hinfer : op.infer (inputs.zipIdx.map op.describeInput) = .ok [w])
    (hdtype : w.dtype = (Value.Stored.wrap x).dtype) (hshape : w.shape = .ofShape y.shape)
    (hdata : y.data = x.data) (hsizes : ∀ n ∈ y.shape, n < intLimit)
    (hy : (Value.Stored.wrap y).Held) :
    reference.apply op inputs = .ok [Value.Stored.wrap y] := by
  refine apply_stored op harity hop hcount hinfer
    (hdtype.trans (Value.Stored.Covered.dtype_wrap x y)) hshape hsizes hy
    fun z hz => ?_
  rw [hkernel]
  exact Reshaping.run_eq hx hdata hz

theorem Squeeze.apply_inserted (h : Inserted 1 dims 0 x.shape y.shape) (hdata : y.data = x.data)
    (hdims : Axis.resolveAll y.shape.length ns = .ok dims) (hsizes : ∀ n ∈ x.shape, n < intLimit)
    (hx : (Value.Stored.wrap x).Held) :
    Chain.reference.apply .squeeze [some (Value.Stored.wrap y), some (.int (.ofList ns))] =
      .ok [Value.Stored.wrap x] := by
  have hranked := Operator.squeeze.ranked_told 0 y
  have hinfer := infer_inserted hranked (Operator.squeeze.listsInts_told (i := 1) rfl ns)
    (by rwa [List.length_map]) (h.map SymDim.ofSize)
  exact Chain.apply_reshaping .squeeze rfl rfl rfl rfl (fun _ => rfl) hinfer (by simp)
    (by simp [SymShape.ofShape])
    hdata.symm hsizes hx

theorem Unsqueeze.apply_inserted (h : Inserted 1 dims 0 x.shape y.shape) (hdata : y.data = x.data)
    (hdims : Axis.resolveAll y.shape.length ns = .ok dims) (hsizes : ∀ n ∈ x.shape, n < intLimit)
    (hroom : y.shape.length * SymDim.bytes < byteLimit) (hy : (Value.Stored.wrap y).Held) :
    Chain.reference.apply .unsqueeze [some (Value.Stored.wrap x), some (.int (.ofList ns))] =
      .ok [Value.Stored.wrap y] := by
  have hranked := Operator.unsqueeze.ranked_told 0 x
  have hinfer := (infer_eq_ok_iff hranked (Operator.unsqueeze.listsInts_told (i := 1) rfl ns)).mpr
    ⟨dims, y.shape.map
      .ofSize, by rwa [List.length_map], h.map SymDim.ofSize, by rwa [List.length_map], rfl⟩
  exact Chain.apply_reshaping .unsqueeze rfl rfl rfl rfl (fun _ => rfl) hinfer (by simp)
    (by simp [SymShape.ofShape])
    hdata ((h.forall_mem_iff (P := (· < intLimit)) (by decide)).mpr hsizes) hy

theorem Unsqueeze.exists_apply (hx : (Value.Stored.wrap x).Held)
    (hdistinct : Axis.Distinct (x.shape.length + ns.length) ns)
    (hroom : (x.shape.length + ns.length) * SymDim.bytes < byteLimit)
    (hsizes : ∀ n ∈ x.shape, n < intLimit) : ∃ (dims : List Nat) (y : Tensor α),
      Axis.resolveAll y.shape.length ns = .ok dims ∧ Inserted 1 dims 0 x.shape y.shape ∧
      y.data = x.data ∧
        Chain.reference.apply .unsqueeze [some (Value.Stored.wrap x), some (.int (.ofList ns))] =
          .ok [Value.Stored.wrap y] := by
  obtain ⟨dims, hdims⟩ := (Axis.exists_resolveAll_iff (lt_of_room hroom)).mpr hdistinct
  obtain ⟨y, hy, hdata, hlength⟩ := Inserted.exists_tensor (x := x) hdims
  rw [← hlength] at hdims hroom
  have hheld := (hy.held_iff (entries_of_room hroom)).mpr hx
  exact ⟨dims, y, hdims, hy, hdata, apply_inserted hy hdata hdims hsizes hroom hheld⟩

theorem Unsqueeze.exists_apply_iff (hx : (Value.Stored.wrap x).Held) :
    (∃ vs, Chain.reference.apply .unsqueeze [some (Value.Stored.wrap x), some (.int (.ofList ns))] =
      .ok vs) ↔
      Axis.Distinct (x.shape.length + ns.length) ns ∧
        (x.shape.length + ns.length) * SymDim.bytes < byteLimit ∧ ∀ n ∈ x.shape, n < intLimit := by
  have hlimit := (Value.held_wrap_iff.mp hx).1
  have hranked := Operator.unsqueeze.ranked_told 0 x
  have haxes := Operator.unsqueeze.listsInts_told (i := 1) rfl ns
  have haccepts := exists_infer_iff hranked haxes
  rw [List.length_map] at haccepts
  constructor
  · rintro ⟨vs, hvs⟩
    obtain ⟨w, shape, hw, hshape⟩ := Chain.settled_of_apply (by rfl) (by rfl) hvs
    obtain ⟨dims, cs, -, hcs, -, heq⟩ := (infer_eq_ok_iff hranked haxes).mp hw
    cases heq
    rw [SymTensor.shape_reshaped] at hshape
    have hsettled := (hcs.forall_mem_iff ⟨1, rfl⟩).mp (SymShape.exists_sizeOf? hshape)
    obtain ⟨hdistinct, hroom⟩ := haccepts.mp ⟨_, hw⟩
    refine ⟨hdistinct, hroom, fun n hn => ?_⟩
    obtain ⟨k, hk⟩ := hsettled _ (List.mem_map_of_mem hn)
    exact SymShape.lt_of_sizeOf?_ofSize (hlimit n hn) hk
  · rintro ⟨hdistinct, hroom, hsizes⟩
    obtain ⟨_, y, -, -, -, happly⟩ := exists_apply hx hdistinct hroom hsizes
    exact ⟨_, happly⟩

/-- Ones that were inserted into a shape are removed, and the elements stay. -/
theorem Squeeze.apply_unsqueezed (hx : (Value.Stored.wrap x).Held) {vs : List Value}
    (h : Chain.reference.apply .unsqueeze [some (Value.Stored.wrap x), some (.int (.ofList ns))] =
      .ok vs) :
    ∃ y : Tensor α, vs = [Value.Stored.wrap y] ∧ y.data = x.data ∧
      Chain.reference.apply .squeeze [some (Value.Stored.wrap y), some (.int (.ofList ns))] =
        .ok [Value.Stored.wrap x] := by
  obtain ⟨hdistinct, hroom, hsizes⟩ := (Unsqueeze.exists_apply_iff hx).mp ⟨vs, h⟩
  obtain ⟨dims, y, hdims, hy, hdata, happly⟩ := Unsqueeze.exists_apply hx hdistinct hroom hsizes
  exact ⟨y, ok.inj (h.symm.trans happly), hdata, apply_inserted hy hdata hdims hsizes hx⟩

/-- Ones that were removed from a shape are inserted again, and the elements stay. -/
theorem Unsqueeze.apply_squeezed (hx : (Value.Stored.wrap x).Held)
    (hdistinct : Axis.Distinct x.shape.length ns)
    (hones : ∀ axis ∈ ns, ∀ k, Axis.Denotes x.shape.length axis k → x.shape[k]? = some 1)
    (hroom : x.shape.length * SymDim.bytes < byteLimit) (hsizes : ∀ n ∈ x.shape, n < intLimit) :
    ∃ y : Tensor α,
      Chain.reference.apply .squeeze [some (Value.Stored.wrap x), some (.int (.ofList ns))] =
        .ok [Value.Stored.wrap y] ∧ y.data = x.data ∧
      Chain.reference.apply .unsqueeze [some (Value.Stored.wrap y), some (.int (.ofList ns))] =
        .ok [Value.Stored.wrap x] := by
  obtain ⟨dims, hdims, hinserted⟩ := Inserted.exists_of_ones hroom hdistinct hones
  let y : Tensor α := ⟨dropFrom dims 0 x.shape, x.data, x.length_data.trans hinserted.volume_eq⟩
  have hy : Inserted 1 dims 0 y.shape x.shape := hinserted
  have hfewer := (hy.forall_mem_iff (P := (· < intLimit)) (by decide)).mp hsizes
  have hheld := (hy.held_iff (entries_of_room hroom)).mp hx
  exact ⟨y, Squeeze.apply_inserted hy rfl hdims hfewer hheld, rfl,
    apply_inserted hy rfl hdims hfewer hroom hx⟩

/-- Ones that are inserted along axes are removed along them, and ones that are removed are
inserted again. -/
theorem Squeeze.inverts_unsqueeze (ns : List Int64) :
    (∀ (x axes : SymTensor) (ds : List SymDim), x.shape = .ranked ds → axes.ListsInts ns →
      ((∃ ys, Operator.unsqueeze.infer [some x, some axes] = .ok ys) ↔
        Axis.Distinct (ds.length + ns.length) ns ∧
        (ds.length + ns.length) * SymDim.bytes < byteLimit) ∧
      (∀ ys, Operator.unsqueeze.infer [some x, some axes] = .ok ys → ∃ y z cs, ys = [y] ∧
        y.shape = .ranked cs ∧ cs.length = ds.length + ns.length ∧
        (∀ axis ∈ ns, ∀ k, Axis.Denotes cs.length axis k → cs[k]? = some (.size 1)) ∧
        Operator.squeeze.infer [some y, some axes] = .ok [z] ∧ z.dtype = x.dtype ∧
        z.shape = .ranked ds) ∧
      (Axis.Distinct ds.length ns →
      (∀ axis ∈ ns, ∀ k, Axis.Denotes ds.length axis k → ds[k]? = some (.size 1)) →
        ds.length * SymDim.bytes < byteLimit →
        ∃ y z, Operator.squeeze.infer [some x, some axes] = .ok [y] ∧
          Operator.unsqueeze.infer [some y, some axes] = .ok [z] ∧ z.dtype = x.dtype ∧
          z.shape = .ranked ds)) ∧
    (∀ x : Tensor α, (Value.Stored.wrap x).Held →
      ((∃ vs, Chain.reference.apply .unsqueeze [some (Value.Stored.wrap x),
      some (.int (.ofList ns))] = .ok vs) ↔
        Axis.Distinct (x.shape.length + ns.length) ns ∧
          (x.shape.length + ns.length) * SymDim.bytes < byteLimit ∧ ∀ n ∈ x.shape, n < intLimit) ∧
      (∀ vs, Chain.reference.apply .unsqueeze [some (Value.Stored.wrap x),
      some (.int (.ofList ns))] = .ok vs →
        ∃ y : Tensor α, vs = [Value.Stored.wrap y] ∧ y.data = x.data ∧
          Chain.reference.apply .squeeze [some (Value.Stored.wrap y), some (.int (.ofList ns))] =
            .ok [Value.Stored.wrap x]) ∧
      (Axis.Distinct x.shape.length ns →
        (∀ axis ∈ ns, ∀ k, Axis.Denotes x.shape.length axis k → x.shape[k]? = some 1) →
        x.shape.length * SymDim.bytes < byteLimit → (∀ n ∈ x.shape, n < intLimit) →
        ∃ y : Tensor α,
          Chain.reference.apply .squeeze [some (Value.Stored.wrap x), some (.int (.ofList ns))] =
            .ok [Value.Stored.wrap y] ∧ y.data = x.data ∧
          Chain.reference.apply .unsqueeze [some (Value.Stored.wrap y), some (.int (.ofList ns))] =
            .ok [Value.Stored.wrap x])) := by
  refine ⟨fun x axes ds hx haxes =>
    ⟨Unsqueeze.exists_infer_iff hx haxes, fun ys => infer_unsqueezed hx haxes,
    Unsqueeze.infer_squeezed hx haxes⟩, fun x hx =>
      ⟨Unsqueeze.exists_apply_iff hx, fun vs => apply_unsqueezed hx,
      Unsqueeze.apply_squeezed hx⟩⟩

/-- A one in front of two dimensions that are not known and a one behind them, on the way back as
well. -/
theorem Squeeze.inverts_unsqueeze_outer :
    (∃ y z cs, Operator.unsqueeze.infer
        [some (.ofShape .float (.ranked [.param "n", .unknown])), some (.ofInts [-1, 0])] =
        .ok [y] ∧
      y.shape = .ranked cs ∧ cs.length = 4 ∧ cs[0]? = some (.size 1) ∧ cs[3]? = some (.size 1) ∧
      Operator.squeeze.infer [some y, some (.ofInts [-1, 0])] = .ok [z] ∧
      z.shape = .ranked [.param "n", .unknown]) ∧
    ∃ v : Tensor Int64, v.data = [7, 8] ∧
      Chain.reference.apply .squeeze [some (.int v), some (.int (.ofList [-1, 0]))] =
        .ok [.int (.ofList [7, 8])] := by
  obtain ⟨hsym, hconcrete⟩ := inverts_unsqueeze (α := Int64) [-1, 0]
  have hdistinct : ∀ rank, 2 ≤ rank → rank < 5 → Axis.Distinct rank [-1, 0] := by
    intro rank hlow hhigh
    refine ⟨[rank - 1, 0], .cons ⟨by omega, .inr ?_⟩ (.cons ⟨by omega, .inl rfl⟩ .nil), ?_⟩
    · have hone : (-1 : Int64).toInt = -1 := rfl
      omega
    · simp
      omega
  constructor
  · obtain ⟨haccepts, hremoved, -⟩ :=
      hsym (.ofShape .float (.ranked [.param "n", .unknown])) (.ofInts [-1, 0]) _ rfl
      ⟨rfl, rfl⟩
    obtain ⟨ys, hys⟩ := haccepts.mpr ⟨hdistinct 4 (by decide) (by decide), by decide⟩
    obtain ⟨y, z, cs, rfl, hy, hlength, hones, hz, -, hshape⟩ := hremoved ys hys
    have hrank : cs.length = 4 := hlength
    have hfirst : cs[0]? = some (.size 1) := hones 0 (by simp) 0 (by rw [hrank]; decide)
    have hlast : cs[3]? = some (.size 1) := hones (-1) (by simp) 3 (by rw [hrank]; decide)
    exact ⟨y, z, cs, hys, hy, hrank, hfirst, hlast, hz, hshape⟩
  · obtain ⟨haccepts, hremoved, -⟩ := hconcrete (.ofList [7, 8]) (by decide)
    obtain ⟨vs, hvs⟩ := haccepts.mpr ⟨hdistinct 3 (by decide) (by decide), by decide, by decide⟩
    obtain ⟨v, -, hdata, happly⟩ := hremoved vs hvs
    exact ⟨v, hdata, happly⟩

end Concrete

end TensorGraph
