import TensorGraph.Proofs.Kernels.Chunks
import TensorGraph.Proofs.Kernels.Joining
import TensorGraph.Proofs.Lengths
import TensorGraph.Proofs.Safety.Products

/-! Products of batches of matrices, element by element: each is a sum over a row on the left and a
column on the right, at the batch positions that broadcasting reads together. -/

namespace TensorGraph

open Outcome

variable {ε α : Type}

/-- The shape of two arrays that are read together: aligned at the last dimension, where a missing
size counts as one, two sizes are the same, or one of them is one and gives way. -/
def Shape.Broadcasts (a b c : Shape) : Prop :=
  c.length = max a.length b.length ∧ ∀ i < c.length,
    (a.reverse.getD i 1 = b.reverse.getD i 1 ∨ a.reverse.getD i 1 = 1 ∨ b.reverse.getD i 1 = 1) ∧
      c.reverse[i]? =
        some (if a.reverse.getD i 1 = 1 then b.reverse.getD i 1 else a.reverse.getD i 1)

theorem Layout.getElem?_reverse_padTo {a : Shape} {rank i : Nat} (ha : a.length ≤ rank)
    (hi : i < rank) :
    (padTo rank a).reverse[i]? = some (a.reverse.getD i 1) := by
  rw [padTo, List.reverse_append, List.reverse_replicate, List.getElem?_append, List.length_reverse,
    List.getD_eq_getElem?_getD]
  split_ifs with hlt
  · rw [List.getElem?_eq_getElem (by simpa using hlt)]
    rfl
  · rw [List.getElem?_replicate, if_pos (by omega), List.getElem?_eq_none (by simpa using hlt)]
    rfl

theorem Shape.broadcasts_of_broadcast {a b c : Shape} (h : Layout.broadcast a b = some c) :
    a.Broadcasts b c := by
  have hla := Layout.length_padTo (le_max_left a.length b.length)
  have hlb := Layout.length_padTo (le_max_right a.length b.length)
  have hsizes := Option.mapM_eq_some.mp h
  have hlen := hsizes.length_eq
  rw [List.length_zip, hla, hlb, Nat.min_self] at hlen
  refine ⟨hlen.symm, fun i hi => ?_⟩
  rw [← hlen] at hi
  have hzip : ((Layout.padTo (max a.length b.length) a).zip
      (Layout.padTo (max a.length b.length) b)).reverse[i]? =
        some (a.reverse.getD i 1, b.reverse.getD i 1) := by
    rw [List.zip, List.reverse_zipWith (hla.trans hlb.symm), List.getElem?_zipWith,
      Layout.getElem?_reverse_padTo (le_max_left _ _) hi,
      Layout.getElem?_reverse_padTo (le_max_right _ _) hi]
  obtain ⟨k, hk, hsize⟩ := Related.get_left (List.rel_reverse hsizes) hzip
  rw [hk, Option.some.injEq]
  generalize a.reverse.getD i 1 = m at hsize ⊢
  generalize b.reverse.getD i 1 = n at hsize ⊢
  replace hsize : Layout.broadcastSize m n = some k := hsize
  unfold Layout.broadcastSize at hsize
  split_ifs at hsize ⊢ <;> cases hsize <;> omega

/-- Positions of an array whose dimensions are those of two others. -/
theorem Layout.offset_strides_append {a b : Shape} {is js : Index} (h : is.length = a.length) :
    offset (strides (a ++ b)) (is ++ js) =
      offset (strides a) is * b.volume + offset (strides b) js := by
  induction a generalizing is with
  | nil =>
    obtain rfl := List.eq_nil_of_length_eq_zero h
    simp [offset, strides]
  | cons d ds ih =>
    cases is with
    | nil => cases h
    | cons i is =>
      rw [List.cons_append, List.cons_append, strides, strides, offset, offset, ih (Nat.succ.inj h),
        Shape.volume_append, Nat.add_mul, Nat.mul_right_comm, Nat.add_assoc]

theorem getElem?_flatten_of_length {xss : List (List α)} {n : Nat} (h : ∀ xs ∈ xss, xs.length = n)
    {i j : Nat} (hj : j < n) {xs : List α} (hi : xss[i]? = some xs) :
    xss.flatten[i * n + j]? = xs[j]? := by
  induction xss generalizing i with
  | nil => simp at hi
  | cons first xss ih =>
    rw [List.forall_mem_cons] at h
    rw [List.flatten_cons]
    cases i with
    | zero =>
      cases hi
      rw [Nat.zero_mul, Nat.zero_add, List.getElem?_append_left (h.1 ▸ hj)]
    | succ i =>
      have hfar : (i + 1) * n + j = first.length + (i * n + j) := by
        rw [h.1, Nat.succ_mul]
        omega
      rw [hfar, List.getElem?_append_right (Nat.le_add_right _ _), Nat.add_sub_cancel_left]
      exact ih h.2 hi

theorem Tensor.exists_writeBlocks {t : Tensor α} {bs : List (List α)}
    (h : bs.flatten.length ≤ t.data.length) :
    ∃ u, (t.writeBlocks (bs.map .ok) : Outcome ε (Tensor α)) = .ok u := by
  suffices hfold : ∀ (s : Tensor α) (start : Nat), start + bs.flatten.length ≤ s.data.length →
      ∃ r, ((bs.map .ok).foldlM (fun (written : Tensor α × Nat) (block : Outcome ε (List α)) => do
        let b ← block
        return (← written.1.writeAt written.2 b, written.2 + b.length)) (s, start)) = .ok r by
    obtain ⟨r, hr⟩ := hfold t 0 (by omega)
    exact ⟨r.1, bind_eq_ok.mpr ⟨r, hr, rfl⟩⟩
  clear h
  induction bs with
  | nil => exact fun s start _ => ⟨(s, start), rfl⟩
  | cons b bs ih =>
    intro s start hfit
    rw [List.flatten_cons, List.length_append] at hfit
    have hwrite : ∃ v, (s.writeAt start b : Outcome ε (Tensor α)) = .ok v := by
      rw [writeAt, dif_pos (by omega)]
      exact ⟨_, rfl⟩
    obtain ⟨v, hv⟩ := hwrite
    have hcount := count_writeAt hv
    obtain ⟨r, hr⟩ := ih v (start + b.length) (by omega)
    refine ⟨r, ?_⟩
    rw [List.map_cons, List.foldlM_cons]
    exact bind_eq_ok.mpr ⟨(v, start + b.length),
      bind_eq_ok.mpr ⟨b, rfl, bind_eq_ok.mpr ⟨v, hv, rfl⟩⟩, hr⟩

namespace MatMul

section Sums

variable [Element α] {k : Nat} {left right : Nat → Option α}

/-- The sum of products of elements, from zero on and in order. All of them have to exist. -/
def sumOver (k : Nat) (left right : Nat → Option α) : Outcome ε α :=
  (List.range k).foldlM (fun acc l => do
    Element.add acc (← Element.mul (← .ofOption (left l)) (← .ofOption (right l)))) Element.zero

theorem dot_eq_sumOver {xs ys : List α} (hx : xs.length = k) (hy : ys.length = k)
    (hleft : ∀ l < k, left l = xs[l]?) (hright : ∀ l < k, right l = ys[l]?) :
    (dot xs ys : Outcome ε α) = sumOver k left right := by
  unfold dot sumOver
  generalize (Element.zero : α) = acc
  induction xs generalizing ys k left right acc with
  | nil =>
    cases hx
    rfl
  | cons x xs ih =>
    cases ys with
    | nil =>
      rw [← hy] at hx
      cases hx
    | cons y ys =>
      cases hx
      rw [List.length_cons, List.range_succ_eq_map, List.foldlM_cons, List.zip_cons_cons,
        List.foldlM_cons, hleft 0 (Nat.succ_pos _), hright 0 (Nat.succ_pos _)]
      refine bind_congr fun next => ?_
      rw [List.foldlM_map]
      exact ih rfl (Nat.succ.inj hy) (fun l hl => hleft (l + 1) (Nat.succ_lt_succ hl))
        (fun l hl => hright (l + 1) (Nat.succ_lt_succ hl)) next

end Sums

section Grid

/-- The values of a function of two coordinates, in row-major order. -/
def grid (m n : Nat) (f : Nat → Nat → Outcome ε α) : Outcome ε (List α) := do
  return (← (List.range m).mapM fun i => (List.range n).mapM (f i)).flatten

variable {m n : Nat} {f : Nat → Nat → Outcome ε α}

theorem exists_grid (h : ∀ i < m, ∀ j < n, ∃ v, f i j = .ok v) : ∃ zs, grid m n f = .ok zs := by
  have hrow : ∀ i ∈ List.range m, ∃ row, (List.range n).mapM (f i) = .ok row ∧
      List.Forall₂ (fun _ _ => True) (List.range n) row := fun i hi => exists_mapM fun j hj =>
    (h i (List.mem_range.mp hi) j (List.mem_range.mp hj)).imp fun _ hv => ⟨hv, trivial⟩
  obtain ⟨rows, hrows, -⟩ := exists_mapM hrow
  exact ⟨rows.flatten, bind_eq_ok.mpr ⟨rows, hrows, rfl⟩⟩

theorem getElem?_grid {zs : List α} (h : grid m n f = .ok zs) : zs.length = m * n ∧
    ∀ i < m, ∀ j < n, ∃ v, f i j = .ok v ∧ zs[i * n + j]? = some v := by
  obtain ⟨rows, hrows, h⟩ := bind_eq_ok.mp h
  cases h
  have hrows := mapM_eq_ok.mp hrows
  have hlengths : ∀ row ∈ rows, row.length = n := by
    intro row hrow
    obtain ⟨i, -, hcolumns⟩ := Related.of_mem_right hrows hrow
    rw [← (mapM_eq_ok.mp hcolumns).length_eq, List.length_range]
  constructor
  · rw [List.length_flatten, List.map_congr_left hlengths, List.map_const', List.sum_replicate_nat,
      ← hrows.length_eq, List.length_range]
  · intro i hi j hj
    obtain ⟨row, hrow, hcolumns⟩ := Related.get_left hrows (List.getElem?_range hi)
    obtain ⟨v, hv, hf⟩ := Related.get_left (mapM_eq_ok.mp hcolumns) (List.getElem?_range hj)
    exact ⟨v, hf, by rw [getElem?_flatten_of_length hlengths hj hrow, hv]⟩

end Grid

theorem getElem?_filterMap_range {k : Nat} {f : Nat → Option α} (h : ∀ l < k, (f l).isSome) :
    ((List.range k).filterMap f).length = k ∧
      ∀ l < k, ((List.range k).filterMap f)[l]? = f l := by
  induction k with
  | zero => exact ⟨rfl, fun l hl => by cases hl⟩
  | succ k ih =>
    obtain ⟨hlen, hall⟩ := ih fun l hl => h l (Nat.lt_succ_of_lt hl)
    obtain ⟨a, ha⟩ := Option.isSome_iff_exists.mp (h k (Nat.lt_succ_self k))
    rw [List.range_succ, List.filterMap_append, List.filterMap_cons_some ha, List.filterMap_nil]
    refine ⟨by simp [hlen], fun l hl => ?_⟩
    by_cases hlast : l = k
    · rw [hlast, ha, List.getElem?_append_right hlen.le, hlen, Nat.sub_self]
      rfl
    · have hlt : l < k := by omega
      rw [List.getElem?_append_left (by rwa [hlen]), hall l hlt]

/-- The product of two matrices, with the rows and columns that its sums run over. -/
theorem multiply_eq_grid [Element α] (m k n : Nat) (x y : List α) :
    (multiply m k n x y : Outcome ε (List α)) = grid m n fun i j =>
      dot ((x.drop (i * k)).take k) ((List.range k).filterMap fun l => y[l * n + j]?) := by
  rw [multiply, grid]
  simp only [List.mapM_map, Function.comp_def]

/-- The batch dimensions of a left factor, its rows and its columns: a vector is one row, which the
product does not show. -/
inductive LeftParts : Shape → Shape → Shape → Nat → Prop
  | row (k : Nat) : LeftParts [k] [] [] k
  | matrices (batch : Shape) (m k : Nat) : LeftParts (batch ++ [m, k]) batch [m] k

/-- The batch dimensions of a right factor, its columns and its rows: a vector is one column, which
the product does not show. -/
inductive RightParts : Shape → Shape → Shape → Nat → Prop
  | column (k : Nat) : RightParts [k] [] [] k
  | matrices (batch : Shape) (k n : Nat) : RightParts (batch ++ [k, n]) batch [n] k

section Parts

variable {shape batch side : Shape} {k : Nat}

theorem exists_leftParts (h : shape ≠ []) : ∃ batch rows k, LeftParts shape batch rows k := by
  rcases vector_or_matrices h with ⟨k, rfl⟩ | ⟨batch, m, k, rfl⟩
  · exact ⟨[], [], k, .row k⟩
  · exact ⟨batch, [m], k, .matrices batch m k⟩

theorem exists_rightParts (h : shape ≠ []) :
    ∃ batch columns k, RightParts shape batch columns k := by
  rcases vector_or_matrices h with ⟨k, rfl⟩ | ⟨batch, k, n, rfl⟩
  · exact ⟨[], [], k, .column k⟩
  · exact ⟨batch, [n], k, .matrices batch k n⟩

theorem LeftParts.shape_eq (h : LeftParts shape batch side k) : shape = batch ++ (side ++ [k]) := by
  cases h <;> simp

theorem RightParts.shape_eq (h : RightParts shape batch side k) : shape = batch ++ k :: side := by
  cases h <;> simp

theorem LeftParts.factor_eq (h : LeftParts shape batch side k) :
    factor shape (fun k => (1, k)) = .ok (batch, side.volume, k) := by
  cases h with
  | row k => rfl
  | matrices batch m k => rw [factor_matrices, Shape.volume_eq_prod, List.prod_singleton]

theorem RightParts.factor_eq (h : RightParts shape batch side k) :
    factor shape (fun k => (k, 1)) = .ok (batch, k, side.volume) := by
  cases h with
  | column k => rfl
  | matrices batch k n => rw [factor_matrices, Shape.volume_eq_prod, List.prod_singleton]

theorem LeftParts.unique {batch' side' : Shape} {k' : Nat} (h : LeftParts shape batch side k)
    (h' : LeftParts shape batch' side' k') : batch = batch' ∧ side = side' ∧ k = k' := by
  have hfactor := h.factor_eq.symm.trans h'.factor_eq
  simp only [ok.injEq, Prod.mk.injEq] at hfactor
  obtain ⟨rfl, -, rfl⟩ := hfactor
  have hshape := h.shape_eq.symm.trans h'.shape_eq
  exact ⟨rfl, List.append_cancel_right (List.append_cancel_left hshape), rfl⟩

theorem RightParts.unique {batch' side' : Shape} {k' : Nat} (h : RightParts shape batch side k)
    (h' : RightParts shape batch' side' k') : batch = batch' ∧ side = side' ∧ k = k' := by
  have hfactor := h.factor_eq.symm.trans h'.factor_eq
  simp only [ok.injEq, Prod.mk.injEq] at hfactor
  obtain ⟨rfl, rfl, -⟩ := hfactor
  have hshape := h.shape_eq.symm.trans h'.shape_eq
  exact ⟨rfl, List.cons.inj (List.append_cancel_left hshape) |>.2, rfl⟩

theorem LeftParts.splitLeft_eq (h : LeftParts shape batch side k) :
    splitLeft (shape.map .ofSize) = (batch.map .ofSize, side.map .ofSize, .ofSize k) := by
  cases h with
  | row k => rfl
  | matrices batch m k =>
    rw [List.map_append]
    exact splitLeft_matrices _ _ _

theorem RightParts.splitRight_eq (h : RightParts shape batch side k) :
    splitRight (shape.map .ofSize) = (batch.map .ofSize, side.map .ofSize, .ofSize k) := by
  cases h with
  | column k => rfl
  | matrices batch k n =>
    rw [List.map_append]
    exact splitRight_matrices _ _ _

end Parts

/-- The element of a left factor in a row and at place `l` of it, where the product is at `p` of
the batch. -/
def left? (a : Tensor α) (batchA : Shape) (p is : Index) (l : Nat) : Option α :=
  a.get? (Layout.sourceIndex batchA p ++ (is ++ [l]))

/-- The element of a right factor in a column and at place `l` of it. -/
def right? (b : Tensor α) (batchB : Shape) (p js : Index) (l : Nat) : Option α :=
  b.get? (Layout.sourceIndex batchB p ++ l :: js)

def sumAt [Element α] (a b : Tensor α) (batchA batchB : Shape) (k : Nat) (p is js : Index) :
    Outcome ε α :=
  sumOver k (left? a batchA p is) (right? b batchB p js)

structure Cell (batch rows columns : Shape) (p is js : Index) : Prop where
  batch : List.Forall₂ (· < ·) p batch
  row : List.Forall₂ (· < ·) is rows
  column : List.Forall₂ (· < ·) js columns

section Elements

variable {a b out u : Tensor α} {batchA batchB batch rows columns : Shape} {k l : Nat}
  {p is js : Index}

theorem left?_eq (hleft : LeftParts a.shape batchA rows k)
    (hcan : Layout.canBroadcast batchA batch = true) (hcell : Cell batch rows columns p is js)
    (hl : l < k) :
    (left? a batchA p is l).isSome ∧ left? a batchA p is l =
      a.data[Layout.offset (Layout.strides batchA) (Layout.sourceIndex batchA p) *
      (rows.volume * k) +
        (Layout.offset (Layout.strides rows) is * k + l)]? := by
  have hsource := Layout.sourceIndex_lt hcan hcell.batch
  have hinside : List.Forall₂ (· < ·) (Layout.sourceIndex batchA p ++ (is ++ [l])) a.shape := by
    rw [hleft.shape_eq]
    exact List.rel_append hsource (List.rel_append hcell.row (.cons hl .nil))
  refine ⟨Tensor.isSome_get?_iff.mpr hinside, ?_⟩
  rw [left?, Tensor.get?_of_lt hinside, hleft.shape_eq,
    Layout.offset_strides_append hsource.length_eq,
    Layout.offset_strides_append hcell.row.length_eq, Shape.volume_append]
  simp [Layout.offset, Layout.strides, Shape.volume]

theorem right?_eq (hright : RightParts b.shape batchB columns k)
    (hcan : Layout.canBroadcast batchB batch = true) (hcell : Cell batch rows columns p is js)
    (hl : l < k) :
    (right? b batchB p js l).isSome ∧ right? b batchB p js l =
      b.data[Layout.offset (Layout.strides batchB) (Layout.sourceIndex batchB p) *
      (k * columns.volume) +
        (l * columns.volume + Layout.offset (Layout.strides columns) js)]? := by
  have hsource := Layout.sourceIndex_lt hcan hcell.batch
  have hinside : List.Forall₂ (· < ·) (Layout.sourceIndex batchB p ++ l :: js) b.shape := by
    rw [hright.shape_eq]
    exact List.rel_append hsource (.cons hl hcell.column)
  refine ⟨Tensor.isSome_get?_iff.mpr hinside, ?_⟩
  rw [right?, Tensor.get?_of_lt hinside, hright.shape_eq,
    Layout.offset_strides_append hsource.length_eq]
  simp [Layout.offset, Layout.strides, Shape.volume, Nat.mul_comm]

theorem exists_block {t : Tensor α} {source : Shape} {size : Nat}
    (hvolume : t.shape.volume = source.volume * size)
    (hcan : Layout.canBroadcast source batch = true) (hp : List.Forall₂ (· < ·) p batch) :
    ∃ x, (t.block (Layout.offset (Layout.strides source) (Layout.sourceIndex source p) * size)
      size :
      Outcome ε (List α)) = .ok x := by
  have hlt := Layout.offset_strides_lt (Layout.sourceIndex_lt hcan hp)
  rw [Tensor.block, if_pos]
  · exact ⟨_, rfl⟩
  · rw [t.length_data, hvolume, ← Nat.succ_mul]
    exact Nat.mul_le_mul_right _ hlt

theorem getElem?_of_block {t : Tensor α} {start size i : Nat} {x : List α}
    (h : (t.block start size : Outcome ε (List α)) = .ok x) (hi : i < size) :
    x[i]? = t.data[start + i]? := by
  unfold Tensor.block at h
  split_ifs at h
  cases h
  rw [List.getElem?_take, if_pos hi, List.getElem?_drop]

variable [Element α]

/-- The rows and columns that the kernel cuts out of its blocks are those of the factors. -/
theorem dot_eq_sumAt (hleft : LeftParts a.shape batchA rows k)
    (hright : RightParts b.shape batchB columns k) (hcanA : Layout.canBroadcast batchA batch = true)
    (hcanB : Layout.canBroadcast batchB batch = true) (hcell : Cell batch rows columns p is js)
    {x y : List α}
    (hx : (a.block (Layout.offset (Layout.strides batchA) (Layout.sourceIndex batchA p) *
      (rows.volume * k)) (rows.volume * k) : Outcome ε (List α)) = .ok x)
    (hy : (b.block (Layout.offset (Layout.strides batchB) (Layout.sourceIndex batchB p) *
      (k * columns.volume)) (k * columns.volume) : Outcome ε (List α)) = .ok y) :
    (dot ((x.drop (Layout.offset (Layout.strides rows) is * k)).take k)
      ((List.range k).filterMap fun l =>
        y[l * columns.volume + Layout.offset (Layout.strides columns) js]?) : Outcome ε α) =
          sumAt a b batchA batchB k p is js := by
  have hrow : (Layout.offset (Layout.strides rows) is + 1) * k ≤ rows.volume * k :=
    Nat.mul_le_mul_right k (Layout.offset_strides_lt hcell.row)
  rw [Nat.succ_mul] at hrow
  have hcolumn := Layout.offset_strides_lt hcell.column
  have hplace : ∀ l < k, l * columns.volume + Layout.offset (Layout.strides columns) js <
      k * columns.volume := fun l hl => by
    have hlast : (l + 1) * columns.volume ≤ k * columns.volume := Nat.mul_le_mul_right _ hl
    rw [Nat.succ_mul] at hlast
    omega
  have hlength := Tensor.length_of_block hx
  have hreadB : ∀ l < k, y[l * columns.volume + Layout.offset (Layout.strides columns) js]? =
      right? b batchB p js l := fun l hl => by
    rw [(right?_eq hright hcanB hcell hl).2, getElem?_of_block hy (hplace l hl)]
  have hsome : ∀ l < k,
      (y[l * columns.volume + Layout.offset (Layout.strides columns) js]?).isSome := fun l hl => by
    rw [hreadB l hl]
    exact (right?_eq hright hcanB hcell hl).1
  obtain ⟨hcount, hread⟩ := getElem?_filterMap_range hsome
  refine dot_eq_sumOver ?_ hcount (fun l hl => ?_) fun l hl => ?_
  · rw [List.length_take, List.length_drop, hlength]
    omega
  · rw [(left?_eq hleft hcanA hcell hl).2, List.getElem?_take, if_pos hl, List.getElem?_drop,
      getElem?_of_block hx (by omega)]
  · rw [hread l hl, hreadB l hl]

theorem product_eq (hleft : LeftParts a.shape batchA rows k)
    (hright : RightParts b.shape batchB columns k) (hcanA : Layout.canBroadcast batchA batch = true)
    (hcanB : Layout.canBroadcast batchB batch = true)
    (hp : List.Forall₂ (· < ·) p batch) : ∃ f : Nat → Nat → Outcome OpError α,
      product a b rows.volume k columns.volume
          (Layout.offset (Layout.strides batchA) (Layout.sourceIndex batchA p))
          (Layout.offset (Layout.strides batchB) (Layout.sourceIndex batchB p)) =
        (checkSize (rows.volume * columns.volume) >>= fun _ => grid rows.volume columns.volume f) ∧
      ∀ is js, Cell batch rows columns p is js →
        f (Layout.offset (Layout.strides rows) is) (Layout.offset (Layout.strides columns) js) =
          sumAt a b batchA batchB k p is js := by
  have hvolumeA : a.shape.volume = batchA.volume * (rows.volume * k) := by
    rw [hleft.shape_eq, Shape.volume_append, Shape.volume_append]
    simp [Shape.volume]
  have hvolumeB : b.shape.volume = batchB.volume * (k * columns.volume) := by
    rw [hright.shape_eq, Shape.volume_append, Shape.volume]
  obtain ⟨x, hx⟩ := exists_block (ε := OpError) hvolumeA hcanA hp
  obtain ⟨y, hy⟩ := exists_block (ε := OpError) hvolumeB hcanB hp
  refine ⟨fun i j => dot ((x.drop (i * k)).take k)
      ((List.range k).filterMap fun l => y[l * columns.volume + j]?), ?_,
    fun is js hcell => dot_eq_sumAt hleft hright hcanA hcanB hcell hx hy⟩
  rw [product, Nat.mul_assoc, Nat.mul_assoc, hx, ok_bind, hy, ok_bind, multiply_eq_grid]

theorem sums_of_product (hleft : LeftParts a.shape batchA rows k)
    (hright : RightParts b.shape batchB columns k) (hcanA : Layout.canBroadcast batchA batch = true)
    (hcanB : Layout.canBroadcast batchB batch = true) (hp : List.Forall₂ (· < ·) p batch)
    {zs : List α}
    (h : product a b rows.volume k columns.volume
      (Layout.offset (Layout.strides batchA) (Layout.sourceIndex batchA p))
      (Layout.offset (Layout.strides batchB) (Layout.sourceIndex batchB p)) = .ok zs) :
    zs.length = rows.volume * columns.volume ∧ ∀ is js, Cell batch rows columns p is js →
      ∃ v, (sumAt a b batchA batchB k p is js : Outcome OpError α) = .ok v ∧
        zs[Layout.offset (Layout.strides rows) is * columns.volume +
          Layout.offset (Layout.strides columns) js]? = some v := by
  obtain ⟨f, hf, hsum⟩ := product_eq hleft hright hcanA hcanB hp
  rw [hf] at h
  obtain ⟨_, -, h⟩ := bind_eq_ok.mp h
  obtain ⟨hlen, hgrid⟩ := getElem?_grid h
  refine ⟨hlen, fun is js hcell => ?_⟩
  obtain ⟨v, hv, hread⟩ := hgrid _ (Layout.offset_strides_lt hcell.row) _
    (Layout.offset_strides_lt hcell.column)
  exact ⟨v, by rw [← hsum is js hcell, hv], hread⟩

theorem exists_position {shape : Shape} {i : Nat} (hi : i < shape.volume) :
    ∃ index, List.Forall₂ (· < ·) index shape ∧ Layout.offset (Layout.strides shape) index = i := by
  have hall := congrArg (·[i]?) (Layout.map_offset_all shape)
  simp only [List.getElem?_map, List.getElem?_range hi, Option.map_eq_some_iff] at hall
  obtain ⟨index, hindex, hoffset⟩ := hall
  exact ⟨index, Index.lt_of_mem_all (List.mem_of_getElem? hindex), hoffset⟩

theorem exists_product (hleft : LeftParts a.shape batchA rows k)
    (hright : RightParts b.shape batchB columns k) (hcanA : Layout.canBroadcast batchA batch = true)
    (hcanB : Layout.canBroadcast batchB batch = true) (hp : List.Forall₂ (· < ·) p batch)
    (hsize : rows.volume * columns.volume < sizeLimit)
    (hsums : ∀ is js, Cell batch rows columns p is js →
      ∃ v, (sumAt a b batchA batchB k p is js : Outcome OpError α) = .ok v) :
    ∃ zs, product a b rows.volume k columns.volume
      (Layout.offset (Layout.strides batchA) (Layout.sourceIndex batchA p))
      (Layout.offset (Layout.strides batchB) (Layout.sourceIndex batchB p)) = .ok zs := by
  obtain ⟨f, hf, hsum⟩ := product_eq hleft hright hcanA hcanB hp
  have hcells : ∀ i < rows.volume, ∀ j < columns.volume, ∃ v, f i j = .ok v := by
    intro i hi j hj
    obtain ⟨is, his, rfl⟩ := exists_position hi
    obtain ⟨js, hjs, rfl⟩ := exists_position hj
    have hcell : Cell batch rows columns p is js := ⟨hp, his, hjs⟩
    rw [hsum is js hcell]
    exact hsums is js hcell
  obtain ⟨zs, hzs⟩ := exists_grid hcells
  exact ⟨zs, by rw [hf, checkSize_eq_ok.mpr ⟨hsize, rfl⟩, ok_bind, hzs]⟩

section Fill

variable (hleft : LeftParts a.shape batchA rows k) (hright : RightParts b.shape batchB columns k)
  (hbatch : Layout.broadcast batchA batchB = some batch) (hshape : out.shape = batch ++
    (rows ++ columns))

include hleft hright hbatch

theorem fill_eq : fill a b out = (do
    let stridesA ← Layout.broadcastStrides batchA batch
    let stridesB ← Layout.broadcastStrides batchB batch
    let positions ← Index.checkedAll batch
    out.writeBlocks (positions.map fun index => product a b rows.volume k columns.volume
      (Layout.offset stridesA index) (Layout.offset stridesB index))) := by
  rw [fill, hleft.factor_eq, ok_bind, hright.factor_eq, ok_bind]
  dsimp only
  rw [refuseIf_neg (not_not.mpr rfl), ok_bind, hbatch, orRefuse_some, ok_bind]

include hshape

theorem sums_of_fill (h : fill a b out = .ok u) : u.shape = out.shape ∧
    (Shape.Counted batchA.reverse ∧ Shape.Counted batchB.reverse) ∧
      ∀ p is js, Cell batch rows columns p is js →
        ∃ v, (sumAt a b batchA batchB k p is js : Outcome OpError α) = .ok v ∧
          u.get? (p ++ (is ++ js)) = some v := by
  obtain ⟨hcanA, hcanB⟩ := Layout.canBroadcast_of_broadcast hbatch
  rw [fill_eq hleft hright hbatch] at h
  obtain ⟨stepsA, hstepsA, h⟩ := bind_eq_ok.mp h
  obtain ⟨stepsB, hstepsB, h⟩ := bind_eq_ok.mp h
  obtain ⟨positions, hpositions, h⟩ := bind_eq_ok.mp h
  obtain ⟨_, -, hall⟩ := bind_eq_ok.mp hpositions
  cases hall
  have hkept : u.shape = out.shape := Tensor.keepsShape_writeBlocks out _ u h
  obtain ⟨bs, hblocks, hdata⟩ := Tensor.data_writeBlocks h
  have hproducts := Related.of_map_eq hblocks
  have hsums : ∀ p zs, List.Forall₂ (· < ·) p batch → product a b rows.volume k columns.volume
      (Layout.offset stepsA p) (Layout.offset stepsB p) = .ok zs →
        zs.length = rows.volume * columns.volume ∧ ∀ is js, Cell batch rows columns p is js →
          ∃ v, (sumAt a b batchA batchB k p is js : Outcome OpError α) = .ok v ∧
            zs[Layout.offset (Layout.strides rows) is * columns.volume +
              Layout.offset (Layout.strides columns) js]? = some v := by
    intro p zs hp hzs
    rw [Layout.offset_of_broadcastStrides hstepsA hp, Layout.offset_of_broadcastStrides hstepsB hp]
      at hzs
    exact sums_of_product hleft hright hcanA hcanB hp hzs
  have hlengths : ∀ zs ∈ bs, zs.length = rows.volume * columns.volume := by
    intro zs hzs
    obtain ⟨p, hp, hproduct⟩ := Related.of_mem_right hproducts hzs
    exact (hsums p zs (Index.lt_of_mem_all hp) hproduct).1
  refine ⟨hkept, ⟨(Layout.exists_broadcastStrides_iff hcanA).mp ⟨_, hstepsA⟩,
    (Layout.exists_broadcastStrides_iff hcanB).mp ⟨_, hstepsB⟩⟩, fun p is js hcell => ?_⟩
  obtain ⟨zs, hzs, hproduct⟩ := Related.get_left hproducts (Index.getElem?_all hcell.batch)
  obtain ⟨v, hv, hread⟩ := (hsums p zs hcell.batch hproduct).2 is js hcell
  refine ⟨v, hv, ?_⟩
  have hinside : List.Forall₂ (· < ·) (p ++ (is ++ js)) u.shape := by
    rw [hkept, hshape]
    exact List.rel_append hcell.batch (List.rel_append hcell.row hcell.column)
  have hplace : Layout.offset (Layout.strides rows) is * columns.volume +
      Layout.offset (Layout.strides columns) js < rows.volume * columns.volume := by
    rw [← hlengths zs (List.mem_of_getElem? hzs)]
    exact (List.getElem?_eq_some_iff.mp hread).1
  have hflat := getElem?_flatten_of_length hlengths hplace hzs
  rw [hread] at hflat
  rw [Tensor.get?_of_lt hinside, hkept, hshape, Layout.offset_strides_append hcell.batch.length_eq,
    Layout.offset_strides_append hcell.row.length_eq, Shape.volume_append, hdata,
    List.getElem?_append_left (List.getElem?_eq_some_iff.mp hflat).1, hflat]

theorem exists_fill (hcounted : out.shape.Counted) (hA : Shape.Counted batchA.reverse)
    (hB : Shape.Counted batchB.reverse) (hsums : ∀ p is js, Cell batch rows columns p is js →
      ∃ v, (sumAt a b batchA batchB k p is js : Outcome OpError α) = .ok v) :
    ∃ u, fill a b out = .ok u := by
  obtain ⟨hcanA, hcanB⟩ := Layout.canBroadcast_of_broadcast hbatch
  obtain ⟨stepsA, hstepsA⟩ := (Layout.exists_broadcastStrides_iff (ε := OpError) hcanA).mpr hA
  obtain ⟨stepsB, hstepsB⟩ := (Layout.exists_broadcastStrides_iff (ε := OpError) hcanB).mpr hB
  have hvolume : out.shape.volume = batch.volume * (rows.volume * columns.volume) := by
    rw [hshape, Shape.volume_append, Shape.volume_append]
  have hpositions : (Index.checkedAll batch : Outcome OpError (List Index)) =
      .ok (Index.all batch) := by
    have hfront : Shape.Counted batch := hcounted.of_prefix (hshape ▸ List.prefix_append _ _)
    rw [Index.checkedAll, Layout.checkedCount_eq, if_pos hfront]
    rfl
  have hproducts : ∀ p ∈ Index.all batch, ∃ zs, product a b rows.volume k columns.volume
      (Layout.offset stepsA p) (Layout.offset stepsB p) = .ok zs ∧
        zs.length = rows.volume * columns.volume := by
    intro p hmem
    have hp := Index.lt_of_mem_all hmem
    have hsize : rows.volume * columns.volume < sizeLimit := by
      have hlimit := hcounted.prod_lt
      rw [← Shape.volume_eq_prod, hvolume] at hlimit
      exact (Nat.le_mul_of_pos_left _ (Nat.zero_lt_of_lt (Layout.offset_strides_lt hp))).trans_lt
        hlimit
    rw [Layout.offset_of_broadcastStrides hstepsA hp, Layout.offset_of_broadcastStrides hstepsB hp]
    obtain ⟨zs, hzs⟩ := exists_product hleft hright hcanA hcanB hp hsize (hsums p)
    exact ⟨zs, hzs, (sums_of_product hleft hright hcanA hcanB hp hzs).1⟩
  obtain ⟨bs, hbs, hlengths⟩ := exists_mapM hproducts
  have hblocks : (Index.all batch).map (fun index => product a b rows.volume k columns.volume
      (Layout.offset stepsA index) (Layout.offset stepsB index)) = bs.map .ok := by
    rw [← List.forall₂_eq_eq_eq, List.forall₂_map_left_iff, List.forall₂_map_right_iff]
    exact mapM_eq_ok.mp hbs
  have hfit : bs.flatten.length ≤ out.data.length := by
    have hall : ∀ zs ∈ bs, zs.length = rows.volume * columns.volume := fun zs hzs =>
      (Related.of_mem_right hlengths hzs).elim fun _ h => h.2
    rw [List.length_flatten, List.map_congr_left hall, List.map_const', List.sum_replicate_nat,
      ← hlengths.length_eq, Index.length_all, out.length_data, hvolume]
  obtain ⟨u, hu⟩ := Tensor.exists_writeBlocks (ε := OpError) hfit
  refine ⟨u, ?_⟩
  rw [fill_eq hleft hright hbatch, hstepsA, ok_bind, hstepsB, ok_bind, hpositions, ok_bind, hblocks,
    hu]

end Fill

end Elements

/-- Shapes that are accepted have parts that go together, of which the product is put together. -/
theorem parts_of_infer {left right : Shape} {dtype : DataType} {y : SymTensor}
    (hleft : ∀ n ∈ left, n < sizeLimit) (hright : ∀ n ∈ right, n < sizeLimit)
    (h : infer [some (.ofShape dtype (.ofShape left)), some (.ofShape dtype (.ofShape right))] =
      .ok [y]) :
    ∃ batchA rows k batchB columns batch, LeftParts left batchA rows k ∧
      RightParts right batchB columns k ∧
      Layout.broadcast batchA batchB = some batch ∧
      y.shape = .ofShape (batch ++ (rows ++ columns)) ∧
        ∀ n ∈ batch ++ (rows ++ columns), n < sizeLimit := by
  obtain ⟨a, ha, h⟩ := bind_eq_ok.mp h
  obtain ⟨b, hb, h⟩ := bind_eq_ok.mp h
  obtain rfl := ok.inj ha
  obtain rfl := ok.inj hb
  obtain ⟨_, -, h⟩ := bind_eq_ok.mp h
  simp only [SymTensor.shape_ofShape, SymShape.ofShape] at h
  obtain ⟨_, hempty, h⟩ := bind_eq_ok.mp h
  have hempty := refuseIf_eq_ok.mp hempty
  simp only [List.isEmpty_map, List.isEmpty_iff, not_or] at hempty
  obtain ⟨batchA, rows, k, hpartsA⟩ := exists_leftParts hempty.1
  obtain ⟨batchB, columns, d, hpartsB⟩ := exists_rightParts hempty.2
  rw [hpartsA.splitLeft_eq, hpartsB.splitRight_eq] at h
  obtain ⟨facing, hfacing, h⟩ := bind_eq_ok.mp h
  obtain ⟨s, hs, h⟩ := bind_eq_ok.mp h
  cases h
  rw [hpartsA.shape_eq] at hleft
  rw [hpartsB.shape_eq] at hright
  simp only [List.forall_mem_append, List.forall_mem_cons] at hleft hright
  have hinner : intOfSize k = intOfSize d :=
    SymDim.size.inj
      ((SymDim.eq_of_refine_left hfacing).symm.trans (SymDim.eq_of_refine_right hfacing))
  obtain rfl := intOfSize_inj hleft.2.2.1 hright.2.1 hinner
  obtain ⟨batch, hbatch, rfl⟩ := SymShape.broadcast_ofShape hleft.1 hright.1 hs
  refine ⟨batchA, rows, k, batchB, columns, batch, hpartsA, hpartsB, hbatch, ?_, ?_⟩
  · simp [SymShape.ofShape, SymShape.dims, SymShape.dims?]
  · simp only [List.forall_mem_append]
    exact ⟨Layout.lt_of_broadcast hleft.1 hright.1 hbatch, hleft.2.1, hright.2.2⟩

/-- A product of accepted factors is found just if the strides of both batches can be computed from
the innermost dimension on and no sum fails. No read lies outside, and each element is the sum,
from zero on, of the products of a row and a column, where the batches are broadcast and the
dimension of a vector that is read as a row or a column is left out. -/
theorem multiplies_iff [Element α] {a b out : Tensor α} {dtype : DataType} {y : SymTensor}
    (hsizes : ∀ n ∈ a.shape ++ (b.shape ++ out.shape), n < sizeLimit) (hcounted : out.shape.Counted)
    (h : infer [some (.ofShape dtype (.ofShape a.shape)),
      some (.ofShape dtype (.ofShape b.shape))] =
      .ok [y]) (hshape : y.shape = .ofShape out.shape) :
    ∃ batchA rows k batchB columns batch, LeftParts a.shape batchA rows k ∧
      RightParts b.shape batchB columns k ∧ batchA.Broadcasts batchB batch ∧
      out.shape = batch ++ (rows ++ columns) ∧
      (∀ p is js, Cell batch rows columns p is js → ∀ l < k,
        (left? a batchA p is l).isSome ∧ (right? b batchB p js l).isSome) ∧
      ((∃ u, fill a b out = .ok u) ↔
        (Shape.Counted batchA.reverse ∧ Shape.Counted batchB.reverse) ∧
          ∀ p is js, Cell batch rows columns p is js →
            ∃ v, (sumAt a b batchA batchB k p is js : Outcome OpError α) = .ok v) ∧
      ∀ u, fill a b out = .ok u → u.shape = out.shape ∧
        ∀ p is js, Cell batch rows columns p is js →
          ∃ v, (sumAt a b batchA batchB k p is js : Outcome OpError α) = .ok v ∧
            u.get? (p ++ (is ++ js)) = some v := by
  simp only [List.forall_mem_append] at hsizes
  obtain ⟨batchA, rows, k, batchB, columns, batch, hleft, hright, hbatch, htold, hlt⟩ :=
    parts_of_infer hsizes.1 hsizes.2.1 h
  obtain ⟨hcanA, hcanB⟩ := Layout.canBroadcast_of_broadcast hbatch
  have hout : out.shape = batch ++ (rows ++ columns) :=
    SymShape.ofShape_injective hsizes.2.2 hlt (hshape.symm.trans htold)
  refine ⟨batchA, rows, k, batchB, columns, batch, hleft, hright,
    Shape.broadcasts_of_broadcast hbatch, hout,
    fun p is js hcell l hl =>
      ⟨(left?_eq hleft hcanA hcell hl).1, (right?_eq hright hcanB hcell hl).1⟩,
    ⟨?_, ?_⟩, fun u hu => ?_⟩
  · rintro ⟨u, hu⟩
    obtain ⟨-, hstrides, hsums⟩ := sums_of_fill hleft hright hbatch hout hu
    exact ⟨hstrides, fun p is js hcell => (hsums p is js hcell).imp fun _ hv => hv.1⟩
  · rintro ⟨⟨hA, hB⟩, hsums⟩
    exact exists_fill hleft hright hbatch hout hcounted hA hB hsums
  · obtain ⟨hkept, -, hsums⟩ := sums_of_fill hleft hright hbatch hout hu
    exact ⟨hkept, hsums⟩

/-- Two matrices of one row each, by a vector. -/
theorem multiplies_iff_rows : ∃ v,
    (sumAt (⟨[2, 1, 2], [1, 2, 3, 4], rfl⟩ : Tensor Int64) (.ofList [5, 6]) [2] [] 2 [1] [0] [] :
      Outcome OpError Int64) = .ok v ∧
    (⟨[2, 1], [17, 39], rfl⟩ : Tensor Int64).get? [1, 0] = some v := by
  obtain ⟨batchA, rows, k, batchB, columns, batch, hleft, hright, -, hshape, -, -, hsums⟩ :=
    @multiplies_iff Int64 _ ⟨[2, 1, 2], [1, 2, 3, 4], rfl⟩ (.ofList [5, 6]) ⟨[2, 1], [0, 0], rfl⟩
      .int
      ⟨.int, .ranked [.size 2, .size 1], none⟩ (by decide) (by decide) (by decide) rfl
  obtain ⟨rfl, rfl, rfl⟩ := hleft.unique (.matrices [2] 1 2)
  obtain ⟨rfl, rfl, -⟩ := hright.unique (.column 2)
  obtain rfl : batch = [2] := List.append_cancel_right hshape.symm
  have hfill : fill (⟨[2, 1, 2], [1, 2, 3, 4], rfl⟩ : Tensor Int64) (.ofList [5, 6])
      ⟨[2, 1], [0, 0], rfl⟩ = .ok ⟨[2, 1], [17, 39], rfl⟩ := by decide
  exact (hsums _ hfill).2 [1] [0] [] ⟨.cons (by decide) .nil, .cons (by decide) .nil, .nil⟩

/-- The sizes behind a batch of none are multiplied before it is found to be empty. -/
theorem multiplies_fault_empty_batch :
    infer [some (.ofShape .int (.ofShape [0, 2 ^ 32, 2 ^ 32, 1, 1])),
      some (.ofShape .int (.ofShape [1, 1]))] =
        .ok [.ofShape .int (.ofShape [0, 2 ^ 32, 2 ^ 32, 1, 1])] ∧
      Shape.Counted [0, 2 ^ 32, 2 ^ 32, 1, 1] ∧
      fill (⟨[0, 2 ^ 32, 2 ^ 32, 1, 1], [], rfl⟩ : Tensor Int64) ⟨[1, 1], [1], rfl⟩
        ⟨[0, 2 ^ 32, 2 ^ 32, 1, 1], [], rfl⟩ = .fault := by
  decide

end MatMul

end TensorGraph
