import TensorGraph.Proofs.Faults.Counting
import TensorGraph.Proofs.Kernels.Outputs
import TensorGraph.Proofs.Safety.Extent
import TensorGraph.Tensor

/-! Reads and writes of tensors that do not fault because they stay inside. -/

namespace TensorGraph

open Outcome

variable {ε α β : Type}

@[simp] theorem Outcome.noFault_demand_iff {p : Prop} [Decidable p] :
    (demand p : Outcome ε Unit).NoFault ↔ p := by
  by_cases h : p <;> simp [demand, NoFault, h]

@[simp] theorem Outcome.noFault_ofOption_iff {o : Option α} :
    (ofOption o : Outcome ε α).NoFault ↔ o.isSome = true := by
  cases o <;> simp [NoFault]

theorem Outcome.ofOption_eq_ok {o : Option α} {a : α} :
    (ofOption o : Outcome ε α) = .ok a ↔ o = some a := by
  cases o <;> simp

theorem noFault_checkSub {a b : Nat} (h : b ≤ a) : (checkSub a b : Outcome ε Nat).NoFault := by
  rw [checkSub, if_pos h]
  exact noFault_ok _

theorem checkSub_eq_ok {a b n : Nat} (h : (checkSub a b : Outcome ε Nat) = .ok n) :
    b ≤ a ∧ n = a - b := by
  unfold checkSub at h
  split_ifs at h with hle
  cases h
  exact ⟨hle, rfl⟩

namespace Tensor

variable {t : Tensor α} {shape : Shape}

theorem count_eq (t : Tensor α) : t.count = t.shape.volume := t.length_data

theorem noFault_ofData {data : List α} (h : shape.extent < sizeLimit)
    (hlen : data.length = shape.volume) :
    (ofData shape data : Outcome ε (Tensor α)).NoFault := by
  rw [ofData, Layout.checkedCount_eq_ok h, ok_bind, dif_pos hlen]
  exact noFault_ok _

theorem noFault_size {k : Nat} (h : k < t.shape.length) : (t.size k : Outcome ε Nat).NoFault := by
  simp [size, h]

theorem size_eq_ok {k n : Nat} (h : (t.size k : Outcome ε Nat) = .ok n) : t.shape[k]? = some n := by
  unfold size at h
  cases hk : t.shape[k]? <;> simp_all

theorem noFault_mapIndexedM {f : Index → α → Outcome ε β} (h : t.shape.extent < sizeLimit)
    (hf : ∀ index a, List.Forall₂ (· < ·) index t.shape → (f index a).NoFault) :
    (t.mapIndexedM f).NoFault := by
  refine noFault_bind (noFault_mapM fun p hp => ?_) fun data hdata => noFault_ofData h ?_
  · exact hf p.1 p.2 (Index.lt_of_mem_all (List.of_mem_zip hp).1)
  · have hlen := (mapM_eq_ok.mp hdata).length_eq
    rw [← hlen, List.length_zip, Index.length_all, t.length_data, Nat.min_self]

theorem noFault_block {start length : Nat} (h : start + length ≤ t.data.length) :
    (t.block start length : Outcome ε (List α)).NoFault := by
  rw [block, if_pos h]
  exact noFault_ok _

theorem length_of_block {start length : Nat} {xs : List α}
    (h : (t.block start length : Outcome ε (List α)) = .ok xs) : xs.length = length := by
  unfold block at h
  split_ifs at h with hle
  cases h
  rw [List.length_take, List.length_drop]
  omega

theorem subset_of_block {start length : Nat} {xs : List α}
    (h : (t.block start length : Outcome ε (List α)) = .ok xs) : xs ⊆ t.data := by
  unfold block at h
  split_ifs at h
  cases h
  exact fun x hx => List.mem_of_mem_drop (List.mem_of_mem_take hx)

theorem noFault_writeAt {start : Nat} {values : List α}
    (h : start + values.length ≤ t.data.length) :
    (t.writeAt start values : Outcome ε (Tensor α)).NoFault := by
  rw [writeAt, dif_pos h]
  exact noFault_ok _

theorem count_writeAt {u : Tensor α} {start : Nat} {values : List α}
    (h : (t.writeAt start values : Outcome ε (Tensor α)) = .ok u) :
    u.data.length = t.data.length := by
  rw [u.length_data, t.length_data, keepsShape_writeAt t start values u h]

def IsBlock (length : Nat) (block : Outcome ε (List α)) : Prop :=
  block.NoFault ∧ ∀ xs, block = .ok xs → xs.length = length

theorem isBlock_block {start length : Nat} (h : start + length ≤ t.data.length) :
    IsBlock length (t.block start length : Outcome ε (List α)) :=
  ⟨noFault_block h, fun _ hxs => length_of_block hxs⟩

theorem isBlock_bind {γ : Type} {length : Nat} {x : Outcome ε γ} {f : γ → Outcome ε (List α)}
    (hx : x.NoFault) (hf : ∀ c, x = .ok c → IsBlock length (f c)) : IsBlock length (x >>= f) := by
  refine ⟨noFault_bind hx fun c hc => (hf c hc).1, fun xs hxs => ?_⟩
  obtain ⟨c, hc, hxs⟩ := bind_eq_ok.mp hxs
  exact (hf c hc).2 xs hxs

theorem noFault_writeBlocks {blocks : List (Outcome ε (List α))} (lengths : List Nat)
    (h : List.Forall₂ (fun b n => IsBlock n b) blocks lengths)
    (hfit : lengths.sum ≤ t.data.length) : (t.writeBlocks blocks).NoFault := by
  suffices hfold : ∀ (u : Tensor α) (start : Nat), start + lengths.sum ≤ u.data.length →
      (blocks.foldlM (fun ((t, start) : Tensor α × Nat) block => do
        let b ← block
        return (← t.writeAt start b, start + b.length)) (u, start)).NoFault by
    exact noFault_bind (hfold t 0 (by omega)) fun _ _ => noFault_ok _
  clear hfit
  induction h with
  | nil => exact fun _ _ _ => noFault_ok _
  | @cons block n blocks lengths hblock _ ih =>
    intro u start hu
    rw [List.sum_cons] at hu
    rw [List.foldlM_cons]
    refine noFault_bind (noFault_bind hblock.1 fun b hb => ?_) fun s hs => ?_
    · have hlen := hblock.2 b hb
      exact noFault_bind (noFault_writeAt (by omega)) fun _ _ => noFault_ok _
    · obtain ⟨b, hb, hs⟩ := bind_eq_ok.mp hs
      obtain ⟨w, hw, hs⟩ := bind_eq_ok.mp hs
      cases hs
      have hlen := hblock.2 b hb
      have hcount := count_writeAt hw
      exact ih w (start + b.length) (by omega)

theorem noFault_writeBlocks_of_length {blocks : List (Outcome ε (List α))} {n : Nat}
    (h : ∀ b ∈ blocks, IsBlock n b) (hfit : blocks.length * n ≤ t.data.length) :
    (t.writeBlocks blocks).NoFault := by
  refine noFault_writeBlocks (List.replicate blocks.length n) ?_ (by simpa using hfit)
  rw [List.forall₂_iff_get]
  refine ⟨by simp, fun i hi hi' => ?_⟩
  simpa using h _ (List.get_mem blocks ⟨i, hi⟩)

theorem sum_flatMap_range (n : Nat) (lengths : List Nat) :
    ((List.range n).flatMap fun _ => lengths).sum = n * lengths.sum := by
  induction n with
  | zero => simp
  | succ n ih => simp [List.range_succ, ih, Nat.succ_mul]

/-- The counts before and after a dimension divide the element count. -/
theorem outerInner_eq_ok (h : t.shape.extent < sizeLimit) (dim : Nat) :
    (t.outerInner dim : Outcome ε (Nat × Nat)) =
      .ok (Shape.volume (t.shape.take dim), Shape.volume (t.shape.drop (dim + 1))) := by
  have hbefore := Shape.extent_le_of_sublist (List.take_sublist dim t.shape)
  have hafter := Shape.extent_le_of_sublist (List.drop_sublist (dim + 1) t.shape)
  rw [outerInner, Layout.checkedCount_eq_ok (by omega), ok_bind,
    Layout.checkedCount_eq_ok (by omega)]
  rfl

theorem data_length_split {dim n : Nat} (h : t.shape[dim]? = some n) :
    t.data.length =
      Shape.volume (t.shape.take dim) * n * Shape.volume (t.shape.drop (dim + 1)) :=
  t.length_data.trans (Shape.volume_split h)

/-- The elements behind a position along a dimension are a block. -/
theorem isBlock_inner {dim size i k : Nat} (h : t.shape[dim]? = some size)
    (hi : i < Shape.volume (t.shape.take dim)) (hk : k < size) :
    IsBlock (Shape.volume (t.shape.drop (dim + 1)))
      (t.block ((i * size + k) * Shape.volume (t.shape.drop (dim + 1)))
        (Shape.volume (t.shape.drop (dim + 1))) : Outcome ε (List α)) := by
  refine isBlock_block ?_
  rw [data_length_split h, ← Nat.succ_mul]
  refine Nat.mul_le_mul_right _ ?_
  have hlast : (i + 1) * size ≤ Shape.volume (t.shape.take dim) * size :=
    Nat.mul_le_mul_right size hi
  rw [Nat.succ_mul] at hlast
  omega

theorem noFault_read {steps : List Nat} (hpos : ∀ n ∈ t.shape, 0 < n)
    (hreach : Layout.reach steps shape ≤ Layout.reach (Layout.strides t.shape) t.shape)
    {index : Index} (hindex : List.Forall₂ (· < ·) index shape) :
    (.ofOption t.data[Layout.offset steps index]? : Outcome ε α).NoFault := by
  have hinside := Layout.offset_lt_volume hpos hreach hindex
  rw [← t.length_data] at hinside
  simpa using hinside

theorem noFault_broadcastElements (hcan : Layout.canBroadcast t.shape shape = true)
    (ht : t.shape.extent < sizeLimit) (hshape : shape.extent < sizeLimit) :
    (t.broadcastElements shape : Outcome ε (List α)).NoFault := by
  obtain ⟨steps, hsteps, hreach⟩ := Layout.broadcastStrides_eq_ok (ε := ε) hcan ht
  rw [broadcastElements, hsteps, ok_bind, Layout.checkedAll_of_extent hshape, ok_bind]
  refine noFault_mapM fun index hindex => ?_
  have hlt := Index.lt_of_mem_all hindex
  refine noFault_read (fun n hn => ?_) hreach hlt
  exact Layout.pos_of_canBroadcast hcan hlt n hn

theorem noFault_permuted {perm : List Nat} (hperm : Layout.isPermutation t.rank perm = true)
    (ht : t.shape.extent < sizeLimit) : (t.permuted perm : Outcome ε (Tensor α)).NoFault := by
  have hp := Layout.perm_of_isPermutation hperm
  have hreach := Layout.reach_perm hp (Layout.length_strides t.shape)
  have hshape := Layout.perm_permuted hp
  have hextent := Shape.extent_perm hshape
  rw [permuted, Outcome.demand, if_pos hperm, ok_bind, Layout.checkedStrides_of_extent ht, ok_bind]
  dsimp only
  rw [Layout.checkedAll_of_extent (hextent ▸ ht), ok_bind]
  refine noFault_bind (noFault_mapM fun index hindex => ?_) fun data hdata => ?_
  · have hlt := Index.lt_of_mem_all hindex
    refine noFault_read (fun n hn => ?_) hreach.le hlt
    exact Layout.pos_of_lt hlt n (hshape.mem_iff.mpr hn)
  · refine noFault_ofData (hextent ▸ ht) ?_
    rw [← (mapM_eq_ok.mp hdata).length_eq, Index.length_all]

theorem extent_cutShape_le (shape : Shape) (dims : List Nat) :
    (cutShape shape dims).extent ≤ shape.extent := by
  refine Shape.extent_le_of_forall₂ ?_
  rw [cutShape, List.forall₂_map_left_iff, List.forall₂_iff_get]
  refine ⟨by simp, fun i hi hi' => ?_⟩
  simp only [List.get_eq_getElem, List.getElem_zipIdx]
  split_ifs <;> omega

theorem noFault_lanes (h : t.shape.extent < sizeLimit) (dims : List Nat) :
    (t.lanes dims : Outcome ε (List (List α))).NoFault := by
  have hcut := extent_cutShape_le t.shape dims
  rw [lanes, Layout.checkedAll_of_extent (by omega)]
  exact noFault_ok _

theorem noFault_laneStarts (h : t.shape.extent < sizeLimit) (dim : Nat) :
    (t.laneStarts dim : Outcome ε (List Index)).NoFault := by
  have hcut : Shape.extent (t.shape.set dim 1) ≤ t.shape.extent := by
    refine Shape.extent_le_of_forall₂ ?_
    rw [List.forall₂_iff_get]
    refine ⟨by simp, fun i hi hi' => ?_⟩
    simp only [List.get_eq_getElem, List.getElem_set]
    split_ifs <;> omega
  rw [laneStarts, Layout.checkedAll_of_extent (by omega)]
  exact noFault_ok _

end Tensor

end TensorGraph
