import TensorGraph.Proofs.Kernels.Numeric
import TensorGraph.Proofs.Rules.Normalization
import TensorGraph.Proofs.Safety.Elementwise

/-! Products of matrices. Sums of integers stay inside 64 bits if the sum of the greatest products
does; the blocks of the factors lie inside since the batch positions do. -/

namespace TensorGraph

open Outcome Kernel

variable {inputs : ValueInputs} {outputs : List Value} {out : Value} {ε α : Type}

def magnitude (ns : List Int64) : Nat := (ns.map fun n => n.toInt.natAbs).foldr max 0

theorem natAbs_le_magnitude {ns : List Int64} {n : Int64} (h : n ∈ ns) :
    n.toInt.natAbs ≤ magnitude ns := by
  induction ns with
  | nil => cases h
  | cons m ns ih =>
    simp only [magnitude, List.map_cons, List.foldr_cons] at ih ⊢
    rcases List.mem_cons.mp h with rfl | h
    · exact le_max_left _ _
    · exact (ih h).trans (le_max_right _ _)

namespace MatMul

/-- The parts of a factor whose last two sizes are those of its matrices. -/
structure Parts (shape batch side : Shape) (rows inner : Nat) : Prop where
  volume : shape.volume = batch.volume * (rows * inner)
  volume_side : Shape.volume side = rows
  batch_sublist : batch.Sublist shape
  side_sublist : side.Sublist shape

theorem vector_or_matrices {shape : Shape} (h : shape ≠ []) :
    (∃ k, shape = [k]) ∨ ∃ batch m k, shape = batch ++ [m, k] := by
  obtain ⟨front, k, rfl⟩ := (List.eq_nil_or_concat shape).resolve_left h
  rcases List.eq_nil_or_concat front with rfl | ⟨batch, m, rfl⟩
  · exact .inl ⟨k, rfl⟩
  · exact .inr ⟨batch, m, k, by simp⟩

theorem factor_matrices (batch : Shape) (m k : Nat) (vector : Nat → Nat × Nat) :
    factor (batch ++ [m, k]) vector = .ok (batch, m, k) := by
  match batch with
  | [] => rfl
  | [_] => rfl
  | b :: c :: batch => simp [factor, List.getD_eq_getElem?_getD]

theorem splitLeft_matrices (batch : List SymDim) (m k : SymDim) :
    splitLeft (batch ++ [m, k]) = (batch, [m], k) := by
  match batch with
  | [] => rfl
  | [_] => rfl
  | b :: c :: batch => simp [splitLeft, List.getLast?_cons]

theorem splitRight_matrices (batch : List SymDim) (k n : SymDim) :
    splitRight (batch ++ [k, n]) = (batch, [n], k) := by
  match batch with
  | [] => rfl
  | [_] => rfl
  | b :: c :: batch => simp [splitRight, List.getD_eq_getElem?_getD]

theorem parts_matrices (batch : Shape) (m k : Nat) :
    Parts (batch ++ [m, k]) batch [m] m k where
  volume := by
    rw [Shape.volume_append]
    simp [Shape.volume]
  volume_side := Nat.mul_one m
  batch_sublist := List.sublist_append_left _ _
  side_sublist := ((List.singleton_sublist.mpr (by simp)).trans (List.sublist_append_right _ _))

theorem parts_matrices_swap (batch : Shape) (k n : Nat) :
    Parts (batch ++ [k, n]) batch [n] n k where
  volume := by
    rw [Shape.volume_append]
    simp [Shape.volume, Nat.mul_comm]
  volume_side := Nat.mul_one n
  batch_sublist := List.sublist_append_left _ _
  side_sublist := ((List.singleton_sublist.mpr (by simp)).trans (List.sublist_append_right _ _))

theorem parts_vector (k : Nat) : Parts [k] [] [] 1 k where
  volume := by simp [Shape.volume]
  volume_side := rfl
  batch_sublist := List.nil_sublist _
  side_sublist := List.nil_sublist _

/-- The parts of a left factor are told and read alike. -/
theorem exists_left {shape : Shape} (h : shape ≠ []) : ∃ batch side m k,
    Parts shape batch side m k ∧ factor shape (fun k => (1, k)) = .ok (batch, m, k) ∧
      shape.getLastD 1 = k ∧
        splitLeft (shape.map .ofSize) = (batch.map .ofSize, side.map .ofSize, .ofSize k) := by
  rcases vector_or_matrices h with ⟨k, rfl⟩ | ⟨batch, m, k, rfl⟩
  · exact ⟨[], [], 1, k, parts_vector k, rfl, rfl, rfl⟩
  · refine ⟨batch, [m], m, k, parts_matrices batch m k, factor_matrices batch m k _, by simp, ?_⟩
    rw [List.map_append]
    exact splitLeft_matrices _ _ _

theorem exists_right {shape : Shape} (h : shape ≠ []) : ∃ batch side k n,
    Parts shape batch side n k ∧ factor shape (fun k => (k, 1)) = .ok (batch, k, n) ∧
      splitRight (shape.map .ofSize) = (batch.map .ofSize, side.map .ofSize, .ofSize k) := by
  rcases vector_or_matrices h with ⟨k, rfl⟩ | ⟨batch, k, n, rfl⟩
  · exact ⟨[], [], k, 1, parts_vector k, rfl, rfl⟩
  · refine ⟨batch, [n], k, n, parts_matrices_swap batch k n, factor_matrices batch k n _, ?_⟩
    rw [List.map_append]
    exact splitRight_matrices _ _ _

theorem noFault_dot_float (xs ys : List Float32) : (dot xs ys : Outcome ε Float32).NoFault :=
  noFault_foldlM (fun _ _ _ => noFault_bind (noFault_ok _) fun _ _ => noFault_ok _) _

/-- A sum of products stays inside 64 bits if its start and as many of the greatest ones do. -/
theorem noFault_foldlM_dot {zs : List (Int64 × Int64)} {r : Nat}
    (hproducts : ∀ s ∈ zs, (s.1.toInt * s.2.toInt).natAbs ≤ r) {acc : Int64}
    (hacc : acc.toInt.natAbs + zs.length * r ≤ 9223372036854775807) :
    (zs.foldlM (fun (acc : Int64) ((x, y) : Int64 × Int64) => do
      Element.add acc (← Element.mul x y)) acc : Outcome ε Int64).NoFault := by
  induction zs generalizing acc with
  | nil => exact noFault_ok _
  | cons s zs ih =>
    rw [List.forall_mem_cons] at hproducts
    rw [List.length_cons, Nat.succ_mul] at hacc
    obtain ⟨hfirst, hrest⟩ := hproducts
    have hproduct : FitsInt (s.1.toInt * s.2.toInt) := by unfold FitsInt; omega
    obtain ⟨n, hn, hvalue⟩ := exists_checkInt (ε := ε) hproduct
    have hsum : FitsInt (acc.toInt + n.toInt) := by unfold FitsInt; omega
    obtain ⟨next, hnext, htotal⟩ := exists_checkInt (ε := ε) hsum
    rw [List.foldlM_cons]
    have hstep : (do Element.add acc (← Element.mul s.1 s.2) : Outcome ε Int64) = .ok next := by
      change ((checkInt (s.1.toInt * s.2.toInt) : Outcome ε Int64) >>= fun n =>
        checkInt (acc.toInt + n.toInt)) = .ok next
      rw [hn, ok_bind, hnext]
    change ((do Element.add acc (← Element.mul s.1 s.2) : Outcome ε Int64) >>= _).NoFault
    rw [hstep, ok_bind]
    exact ih hrest (by omega)

/-- A sum of integer products stays inside 64 bits if the sum of the greatest ones does. -/
theorem noFault_dot_int {xs ys : List Int64} {p q : Nat} (hx : ∀ x ∈ xs, x.toInt.natAbs ≤ p)
    (hy : ∀ y ∈ ys, y.toInt.natAbs ≤ q) (h : xs.length * (p * q) ≤ 9223372036854775807) :
    (dot xs ys : Outcome ε Int64).NoFault := by
  have hproducts : ∀ s ∈ xs.zip ys, (s.1.toInt * s.2.toInt).natAbs ≤ p * q := by
    intro s hs
    obtain ⟨hs1, hs2⟩ := List.of_mem_zip hs
    rw [Int.natAbs_mul]
    exact Nat.mul_le_mul (hx _ hs1) (hy _ hs2)
  have hlen : (xs.zip ys).length * (p * q) ≤ xs.length * (p * q) := by
    refine Nat.mul_le_mul_right _ ?_
    rw [List.length_zip]
    exact min_le_left _ _
  have hzero : (Element.zero : Int64).toInt.natAbs = 0 := rfl
  apply noFault_foldlM_dot hproducts
  omega

theorem isBlock_multiply [Element α] {m k n : Nat} {a b : List α}
    (hdot : ∀ xs ys : List α, xs ⊆ a → ys ⊆ b → xs.length ≤ k → (dot xs ys : Outcome ε α).NoFault) :
    Tensor.IsBlock (m * n) (multiply m k n a b : Outcome ε (List α)) := by
  refine ⟨noFault_bind ?_ fun _ _ => noFault_ok _, fun zs hzs => ?_⟩
  · refine noFault_mapM fun i _ => noFault_mapM fun column hcolumn => hdot _ _ ?_ ?_ ?_
    · exact fun x hx => List.mem_of_mem_drop (List.mem_of_mem_take hx)
    · obtain ⟨j, -, rfl⟩ := List.mem_map.mp hcolumn
      intro y hy
      obtain ⟨i, -, hi⟩ := List.mem_filterMap.mp hy
      exact List.mem_of_getElem? hi
    · exact List.length_take_le _ _
  · obtain ⟨rows, hrows, hzs⟩ := bind_eq_ok.mp hzs
    cases hzs
    have hrows := mapM_eq_ok.mp hrows
    have hlengths : ∀ row ∈ rows, row.length = n := by
      intro row hrow
      obtain ⟨i, hi⟩ := List.getElem?_of_mem hrow
      obtain ⟨_, -, hcolumns⟩ := Related.get_right hrows hi
      have hlen := (mapM_eq_ok.mp hcolumns).length_eq
      rw [← hlen, List.length_map, List.length_range]
    rw [List.length_flatten, List.map_congr_left hlengths, List.map_const', List.sum_replicate_nat,
      ← hrows.length_eq, List.length_range]

theorem block_le {t : Tensor α} {batch side : Shape} {m k i : Nat}
    (ht : Parts t.shape batch side m k)
    (hi : i < batch.volume) : i * (m * k) + m * k ≤ t.data.length := by
  rw [t.length_data, ht.volume, ← Nat.succ_mul]
  exact Nat.mul_le_mul_right _ hi

/-- Batches of matrices are multiplied where the sums do not fault. -/
theorem noFault_fill [Element α] {a b out : Tensor α} {batchA batchB rows columns : Shape}
    {m k d n : Nat} (ha : a.shape.Fits) (hb : b.shape.Fits) (hout : out.shape.Fits)
    (hleft : Parts a.shape batchA rows m k) (hright : Parts b.shape batchB columns n d)
    (hleft' : factor a.shape (fun k => (1, k)) = .ok (batchA, m, k))
    (hright' : factor b.shape (fun k => (k, 1)) = .ok (batchB, d, n))
    (hshape : ∀ batch, Layout.broadcast batchA batchB = some batch →
      out.shape = batch ++ rows ++ columns)
    (hdot : ∀ xs ys : List α, xs ⊆ a.data → ys ⊆ b.data → xs.length ≤ k →
      (dot xs ys : Outcome OpError α).NoFault) : (fill a b out).NoFault := by
  rw [fill, hleft', ok_bind, hright', ok_bind]
  refine noFault_bind (noFault_refuseIf _ _) fun _ hdepth => ?_
  obtain rfl : d = k := not_not.mp (refuseIf_eq_ok.mp hdepth)
  refine noFault_bind (noFault_orRefuse _ _) fun batch hbatch => ?_
  have hbatch := orRefuse_eq_ok.mp hbatch
  obtain ⟨hcanA, hcanB⟩ := Layout.canBroadcast_of_broadcast hbatch
  have hshape := hshape batch hbatch
  have hfitsA := (ha.of_sublist hleft.batch_sublist).extent_lt_sizeLimit
  have hfitsB := (hb.of_sublist hright.batch_sublist).extent_lt_sizeLimit
  obtain ⟨stepsA, hstepsA, hreachA⟩ := Layout.broadcastStrides_eq_ok (ε := OpError) hcanA hfitsA
  obtain ⟨stepsB, hstepsB, hreachB⟩ := Layout.broadcastStrides_eq_ok (ε := OpError) hcanB hfitsB
  have hfits : batch.Fits := by
    refine hout.of_sublist ?_
    rw [hshape, List.append_assoc]
    exact List.sublist_append_left _ _
  have hmatrix : m * n < sizeLimit := by
    have hsides : (rows ++ columns).Sublist out.shape := by
      rw [hshape, List.append_assoc]
      exact List.sublist_append_right _ _
    have hvolume := Shape.volume_append rows columns
    rw [hleft.volume_side, hright.volume_side] at hvolume
    exact hvolume ▸ ((hout.of_sublist hsides).volume_lt).trans (by decide)
  rw [hstepsA, ok_bind, hstepsB, ok_bind, Layout.checkedAll_of_extent hfits.extent_lt_sizeLimit,
    ok_bind]
  refine Tensor.noFault_writeBlocks_of_length (n := m * n) (fun block hblock => ?_) ?_
  · obtain ⟨index, hindex, rfl⟩ := List.mem_map.mp hblock
    have hlt := Index.lt_of_mem_all hindex
    have hi := Layout.offset_lt_volume (Layout.pos_of_canBroadcast hcanA hlt) hreachA hlt
    have hj := Layout.offset_lt_volume (Layout.pos_of_canBroadcast hcanB hlt) hreachB hlt
    have hblockA := block_le hleft hi
    have hblockB := block_le hright hj
    rw [← Nat.mul_assoc] at hblockA
    rw [Nat.mul_comm n, ← Nat.mul_assoc] at hblockB
    refine Tensor.isBlock_bind (Tensor.noFault_block hblockA) fun xs hxs => ?_
    refine Tensor.isBlock_bind (Tensor.noFault_block hblockB) fun ys hys => ?_
    refine Tensor.isBlock_bind (noFault_checkSize hmatrix) fun _ _ => ?_
    refine isBlock_multiply fun us vs hus hvs hlen => hdot us vs ?_ ?_ hlen
    · exact fun u hu => Tensor.subset_of_block hxs (hus hu)
    · exact fun v hv => Tensor.subset_of_block hys (hvs hv)
  · rw [List.length_map, Index.length_all, out.length_data, hshape, Shape.volume_append,
      Shape.volume_append, hleft.volume_side, hright.volume_side, Nat.mul_assoc]

/-- Whether the sum of the greatest products of integers stays inside 64 bits. -/
def TameIn (inputs : ValueInputs) : Prop :=
  match Inputs.find? inputs 0, Inputs.find? inputs 1 with
  | some (.int a), some (.int b) =>
    a.shape.getLastD 1 * (magnitude a.data * magnitude b.data) ≤ 9223372036854775807
  | _, _ => True

instance (inputs : ValueInputs) : Decidable (TameIn inputs) := by
  unfold TameIn
  rcases Inputs.find? inputs 0 with _ | _ | _ <;> rcases Inputs.find? inputs 1 with _ | _ | _ <;>
    infer_instance

theorem TameIn.noFault_dot {a b : Tensor Int64} (h : TameIn inputs)
    (ha : Inputs.find? inputs 0 = some (.int a)) (hb : Inputs.find? inputs 1 = some (.int b))
    {xs ys : List Int64} (hxs : xs ⊆ a.data) (hys : ys ⊆ b.data)
    (hlen : xs.length ≤ a.shape.getLastD 1) : (dot xs ys : Outcome ε Int64).NoFault := by
  simp only [TameIn, ha, hb] at h
  refine noFault_dot_int (fun x hx => natAbs_le_magnitude (hxs hx))
    (fun y hy => natAbs_le_magnitude (hys hy)) ?_
  exact (Nat.mul_le_mul_right _ hlen).trans h

/-- The parts of both sides, of which the output is put together. -/
theorem parts_of_accepts {a b : Value} (h : Operator.matMul.Accepts inputs [out])
    (ha : Inputs.find? inputs 0 = some a) (hb : Inputs.find? inputs 1 = some b) :
    ∃ batchA rows m k batchB columns d n, Parts a.shape batchA rows m k ∧
      factor a.shape (fun k => (1, k)) = .ok (batchA, m, k) ∧ a.shape.getLastD 1 = k ∧
        Parts b.shape batchB columns n d ∧ factor b.shape (fun k => (k, 1)) = .ok (batchB, d, n) ∧
          ∀ batch, Layout.broadcast batchA batchB = some batch →
            out.shape = batch ++ rows ++ columns := by
  have hfitsA := h.fits_input ha
  have hfitsB := h.fits_input hb
  obtain ⟨w, hw, -, hshape⟩ := h.infer_single rfl
  simp only [Operator.infer, infer, Operator.demand_told _ ha, Operator.demand_told _ hb,
    ok_bind] at hw
  obtain ⟨_, -, hw⟩ := bind_eq_ok.mp hw
  simp only [Operator.shape_told, SymShape.ofShape] at hw
  obtain ⟨_, hempty, hw⟩ := bind_eq_ok.mp hw
  have hempty := refuseIf_eq_ok.mp hempty
  simp only [List.isEmpty_map, List.isEmpty_iff, not_or] at hempty
  obtain ⟨batchA, rows, m, k, hleft, hleft', hk, htellA⟩ := exists_left hempty.1
  obtain ⟨batchB, columns, d, n, hright, hright', htellB⟩ := exists_right hempty.2
  rw [htellA, htellB] at hw
  obtain ⟨_, -, hw⟩ := bind_eq_ok.mp hw
  obtain ⟨s, hs, hw⟩ := bind_eq_ok.mp hw
  cases hw
  have hbatchA := hfitsA.of_sublist hleft.batch_sublist
  have hbatchB := hfitsB.of_sublist hright.batch_sublist
  obtain ⟨batch, hbatch, rfl⟩ := SymShape.broadcast_ofShape (fun _ => hbatchA.lt_sizeLimit)
    (fun _ => hbatchB.lt_sizeLimit) hs
  refine ⟨batchA, rows, m, k, batchB, columns, d, n, hleft, hleft', hk, hright, hright', ?_⟩
  intro batch' hbatch'
  cases hbatch'.symm.trans hbatch
  refine h.shape_of_sizes (fun n hn => ?_) ?_ hshape
  · simp only [List.append_assoc, List.mem_append] at hn
    rcases hn with hn | hn | hn
    · exact Layout.lt_of_broadcast (fun _ => hbatchA.lt_sizeLimit) (fun _ => hbatchB.lt_sizeLimit)
        hbatch n hn
    · exact hfitsA.lt_sizeLimit (hleft.side_sublist.mem hn)
    · exact hfitsB.lt_sizeLimit (hright.side_sublist.mem hn)
  · simp [SymShape.ofShape, SymShape.dims, SymShape.dims?]

theorem safe (h : Operator.matMul.Accepts inputs outputs) (htame : TameIn inputs) :
    Safe (MatMul.prepare inputs outputs) := by
  refine safe_demand fun a ha => safe_demand fun b hb => safe_single fun out hout => ?_
  subst hout
  have hfitsA := h.fits_input ha
  have hfitsB := h.fits_input hb
  obtain ⟨batchA, rows, m, k, batchB, columns, d, n, hleft, hleft', hk, hright, hright', hshape⟩ :=
    parts_of_accepts h ha hb
  refine safe_ok ?_
  cases a <;> cases out
  case float.float a out =>
    refine noFault_bind (noFault_bind (noFault_typed _) fun b' hb' => ?_) fun _ _ =>
      noFault_filled _
    obtain rfl := eq_wrap_of_typed hb'
    exact noFault_fill hfitsA hfitsB h.fits_single hleft hright hleft' hright' hshape
      fun xs ys _ _ _ => noFault_dot_float xs ys
  case int.int a out =>
    refine noFault_bind (noFault_bind (noFault_typed _) fun b' hb' => ?_) fun _ _ =>
      noFault_filled _
    obtain rfl := eq_wrap_of_typed hb'
    exact noFault_fill hfitsA hfitsB h.fits_single hleft hright hleft' hright' hshape
      fun xs ys hxs hys hlen => htame.noFault_dot ha hb hxs hys (hlen.trans_eq hk.symm)
  all_goals exact noFault_ok _

end MatMul

namespace Gemm

theorem orient_matrix {t : Tensor Float32} {transposed : Bool} {m k : Nat}
    (h : t.shape = if transposed then [k, m] else [m, k]) (ht : t.shape.Fits) :
    (orient t transposed : Outcome ε (Tensor Float32)).NoFault ∧
      ∀ u, (orient t transposed : Outcome ε (Tensor Float32)) = .ok u →
        u.shape = [m, k] ∧ u.shape.Fits := by
  cases transposed with
  | false =>
    refine ⟨noFault_ok _, fun u hu => ?_⟩
    cases hu
    exact ⟨h, ht⟩
  | true =>
    have hshape : t.shape = [k, m] := h
    have hperm : Layout.isPermutation t.rank [1, 0] = true := by
      rw [Tensor.rank, hshape]
      change Layout.isPermutation 2 [1, 0] = true
      decide
    refine ⟨t.noFault_permuted hperm ht.extent_lt_sizeLimit, fun u hu => ?_⟩
    obtain ⟨_, -, hu⟩ := bind_eq_ok.mp hu
    obtain ⟨_, -, hu⟩ := bind_eq_ok.mp hu
    obtain ⟨_, -, hu⟩ := bind_eq_ok.mp hu
    obtain ⟨_, -, hu⟩ := bind_eq_ok.mp hu
    have hpair : u.shape = [m, k] := by
      rw [(Tensor.ofData_eq_ok hu).1, hshape]
      rfl
    refine ⟨hpair, ht.of_perm ?_⟩
    rw [hpair, hshape]
    exact List.Perm.swap k m []

theorem matrixDims_told {op : Operator} {i : Nat} {v : Value} {transposed : Bool}
    {r : SymDim × SymDim}
    (h : matrixDims (op.told i v) transposed = .ok r) : ∃ m k,
      v.shape = (if transposed then [k, m] else [m, k]) ∧ r = (.ofSize m, .ofSize k) := by
  obtain ⟨s, hs, h⟩ := bind_eq_ok.mp h
  cases h
  rw [Operator.shape_told] at hs
  obtain ⟨hrank, rfl⟩ := SymShape.declareRank_ofShape hs
  obtain ⟨p, q, hshape⟩ := List.length_eq_two.mp hrank
  rw [hshape]
  cases transposed
  · exact ⟨p, q, rfl, rfl⟩
  · exact ⟨q, p, rfl, rfl⟩

theorem shape_out {op : Gemm} (h : (Operator.gemm op).Accepts inputs [out]) {a b : Value}
    (ha : Inputs.find? inputs 0 = some a) (hb : Inputs.find? inputs 1 = some b) : ∃ m k n d,
      a.shape = (if op.transA then [k, m] else [m, k]) ∧
        b.shape = (if op.transB then [n, d] else [d, n]) ∧ out.shape = [m, n] ∧
          ∀ c, Inputs.find? inputs 2 = some c → Layout.canBroadcast c.shape out.shape = true := by
  obtain ⟨w, hw, -, hshape⟩ := h.infer_single rfl
  simp only [Operator.infer, infer, Operator.demand_told _ ha, Operator.demand_told _ hb,
    ok_bind] at hw
  obtain ⟨_, -, hw⟩ := bind_eq_ok.mp hw
  obtain ⟨left, hleft, hw⟩ := bind_eq_ok.mp hw
  obtain ⟨right, hright, hw⟩ := bind_eq_ok.mp hw
  obtain ⟨m, k, hshapeA, rfl⟩ := matrixDims_told hleft
  obtain ⟨d, n, hshapeB, rfl⟩ := matrixDims_told hright
  obtain ⟨_, -, hw⟩ := bind_eq_ok.mp hw
  refine ⟨m, k, n, d, hshapeA, hshapeB, ?_⟩
  have hproduct : ∀ p ∈ [m, n], p < sizeLimit := by
    intro p hp
    rcases List.mem_pair.mp hp with rfl | rfl
    · refine (h.fits_input ha).lt_sizeLimit ?_
      rw [hshapeA]
      split_ifs <;> simp
    · refine (h.fits_input hb).lt_sizeLimit ?_
      rw [hshapeB]
      split_ifs <;> simp
  rw [Operator.find?_told] at hw
  cases hc : Inputs.find? inputs 2 with
  | none =>
    rw [hc] at hw
    cases hw
    exact ⟨h.shape_of_sizes hproduct rfl hshape, by simp⟩
  | some c =>
    rw [hc] at hw
    obtain ⟨_, -, hw⟩ := bind_eq_ok.mp hw
    obtain ⟨common, hcommon, hw⟩ := bind_eq_ok.mp hw
    obtain ⟨s, hs, hw⟩ := bind_eq_ok.mp hw
    cases hw
    rw [Operator.shape_told] at hcommon
    have hc' := h.fits_input hc
    obtain ⟨e, he, rfl⟩ := SymShape.broadcast_ofShape (b := [m, n]) (fun _ => hc'.lt_sizeLimit)
      hproduct hcommon
    have hsizes := Layout.lt_of_broadcast (fun _ => hc'.lt_sizeLimit) hproduct he
    obtain ⟨rfl, rfl⟩ := SymShape.eq_of_refine (a := [m, n]) hproduct hsizes hs
    have hout : out.shape = [m, n] := h.shape_of_sizes hproduct rfl hshape
    refine ⟨hout, fun c' hc' => ?_⟩
    cases hc'
    rw [hout]
    exact (Layout.canBroadcast_of_broadcast he).1

theorem safe (op : Gemm) (h : (Operator.gemm op).Accepts inputs outputs) :
    Safe (op.prepare inputs outputs) := by
  refine safe_demand fun a ha => safe_demand fun b hb => safe_single fun out hout => ?_
  subst hout
  obtain ⟨m, k, n, d, hshapeA, hshapeB, hout, hc⟩ := shape_out h ha hb
  have hfitsA := h.fits_input ha
  have hfitsB := h.fits_input hb
  refine safe_ok (noFault_bind (noFault_typed? _) fun c hc' => ?_)
  refine noFault_floatOnly fun a' out' ha' hout' => noFault_bind (noFault_typed _) fun b' hb' => ?_
  rw [← ha'] at hshapeA hfitsA
  rw [← shape_of_typed hb'] at hshapeB hfitsB
  obtain ⟨hfaultA, hleft⟩ := orient_matrix (ε := OpError) hshapeA hfitsA
  obtain ⟨hfaultB, hright⟩ := orient_matrix (ε := OpError) hshapeB hfitsB
  refine noFault_bind hfaultA fun x hx => noFault_bind hfaultB fun y hy => ?_
  obtain ⟨hx, hfitsX⟩ := hleft x hx
  obtain ⟨hy, hfitsY⟩ := hright y hy
  refine noFault_bind ?_ fun z hz => ?_
  · refine MatMul.noFault_fill hfitsX hfitsY (hout' ▸ h.fits_single)
      (hx ▸ MatMul.parts_matrices [] m k) (hy ▸ MatMul.parts_matrices_swap [] d n)
      (hx ▸ MatMul.factor_matrices [] m k _) (hy ▸ MatMul.factor_matrices [] d n _)
      (fun batch hbatch => ?_) fun xs ys _ _ _ => MatMul.noFault_dot_float xs ys
    cases (Layout.broadcast_nil []).symm.trans hbatch
    exact hout'.trans hout
  have hscaled : (if op.alpha == 1 then z else z.map (· * op.alpha)).shape = out.shape := by
    have hkept := (MatMul.keepsShape_fill x y out' z hz).trans hout'
    split_ifs <;> exact hkept
  cases c with
  | none => exact noFault_ok _
  | some c =>
    obtain ⟨v, hv, hcv⟩ := typed?_eq_ok hc'
    dsimp only
    by_cases hbeta : (op.beta == 0) = true
    · rw [if_pos hbeta]
      exact noFault_ok _
    · rw [if_neg hbeta]
      refine noFault_bind ?_ fun _ _ => noFault_ok _
      exact Tensor.noFault_broadcast (shape_of_typed hcv) (h.fits_input hv) h.fits_single hscaled
        (hc v hv)

end Gemm

end TensorGraph
