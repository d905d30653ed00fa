import TensorGraph.Proofs.NumberOrder
import TensorGraph.Proofs.ScatteredSlices
import TensorGraph.Proofs.Walks

/-! The positions of the elements that are not zero. They are listed once each, in lexicographic
order, and each is a column of the matrix that is given for them. -/

namespace TensorGraph

open Outcome

variable {ε α : Type}

def Value.NonZeroAt : Value → Index → Prop
  | .float x, index => ∃ a, x.get? index = some a ∧ a.toBits ≠ 0 ∧ a.toBits ≠ 0x80000000
  | .int x, index => ∃ n, x.get? index = some n ∧ n ≠ 0

namespace NonZero

variable {x : Tensor α} {columns : List Index} {rank : Nat}

def listed : Value → List Index
  | .float x => positions x
  | .int x => positions x

theorem mem_positions_iff [Element α] {index : Index} :
    index ∈ positions x ↔ ∃ a, x.get? index = some a ∧ Element.same a Element.zero = false := by
  rw [positions, List.mem_filterMap]
  constructor
  · rintro ⟨⟨position, a⟩, hmem, hkept⟩
    dsimp only at hkept
    split_ifs at hkept with hzero
    obtain rfl := Option.some.inj hkept
    exact ⟨a, Tensor.mem_zip_iff.mp hmem, Bool.eq_false_iff.mpr hzero⟩
  · rintro ⟨a, hread, hzero⟩
    exact ⟨(index, a), Tensor.mem_zip_iff.mpr hread, if_neg (Bool.eq_false_iff.mp hzero)⟩

theorem pairwise_positions [Element α] (x : Tensor α) : (positions x).Pairwise (· < ·) := by
  have hlength : (Index.all x.shape).length ≤ x.data.length := by
    rw [Index.length_all, x.length_data]
  have hordered : ((Index.all x.shape).zip x.data).Pairwise fun a b => a.1 < b.1 := by
    rw [← List.pairwise_map, List.map_fst_zip hlength]
    exact Index.pairwise_box _
  refine List.Pairwise.filterMap _ (fun a b hab i hi j hj => ?_) hordered
  dsimp only at hi hj
  split_ifs at hi hj
  obtain rfl := Option.some.inj hi
  obtain rfl := Option.some.inj hj
  exact hab

theorem mem_listed_iff {v : Value} {index : Index} : index ∈ listed v ↔ v.NonZeroAt index := by
  cases v with
  | float x =>
    refine mem_positions_iff.trans (exists_congr fun a => and_congr_right fun _ => ?_)
    rw [← not_or, ← Binary32.beq_zero_iff, Bool.not_eq_true]
    rfl
  | int x =>
    refine mem_positions_iff.trans (exists_congr fun n => and_congr_right fun _ => ?_)
    exact beq_eq_false_iff_ne

theorem pairwise_listed (v : Value) : (listed v).Pairwise (· < ·) := by
  cases v with
  | float x => exact pairwise_positions x
  | int x => exact pairwise_positions x

theorem lt_of_mem_listed {v : Value} {index : Index} (h : index ∈ listed v) :
    List.Forall₂ (· < ·) index v.shape := by
  cases v with
  | float x | int x =>
    obtain ⟨a, hread, -⟩ := mem_positions_iff.mp h
    exact Tensor.isSome_get?_iff.mp (Option.isSome_iff_exists.mpr ⟨a, hread⟩)

def cells (columns : List Index) : List (Index × Int64) :=
  columns.zipIdx.flatMap fun (index, column) => index.zipIdx.map fun (i, row) =>
    ([row, column], intOfSize i)

theorem mem_cells_iff {e : Index × Int64} : e ∈ cells columns ↔ ∃ column index row i,
    columns[column]? = some index ∧ index[row]? = some i ∧ e = ([row, column], intOfSize i) := by
  rw [cells, List.mem_flatMap]
  constructor
  · rintro ⟨⟨index, column⟩, hcolumn, he⟩
    obtain ⟨⟨i, row⟩, hrow, rfl⟩ := List.mem_map.mp he
    exact ⟨column, index, row, i, List.mem_zipIdx_iff_getElem?.mp hcolumn,
      List.mem_zipIdx_iff_getElem?.mp hrow, rfl⟩
  · rintro ⟨column, index, row, i, hcolumn, hrow, rfl⟩
    exact ⟨(index, column), List.mem_zipIdx_iff_getElem?.mpr hcolumn,
      List.mem_map.mpr ⟨(i, row), List.mem_zipIdx_iff_getElem?.mpr hrow, rfl⟩⟩

theorem cells_lt (hcolumns : ∀ index ∈ columns, index.length = rank) :
    ∀ e ∈ cells columns, List.Forall₂ (· < ·) e.1 [rank, columns.length] := by
  intro e he
  obtain ⟨column, index, row, i, hcolumn, hrow, rfl⟩ := mem_cells_iff.mp he
  have hlength := hcolumns index (List.mem_of_getElem? hcolumn)
  have hrow := (List.getElem?_eq_some_iff.mp hrow).1
  exact .cons (hlength ▸ hrow) (.cons (List.getElem?_eq_some_iff.mp hcolumn).1 .nil)

theorem get?_write_cells {out : Tensor Int64} (hcolumns : ∀ index ∈ columns, index.length = rank)
    (hout : out.shape = [rank, columns.length]) {column row i : Nat} {index : Index}
    (hcolumn : columns[column]? = some index) (hrow : index[row]? = some i) :
    (out.write (cells columns)).get? [row, column] = some (intOfSize i) := by
  have hmem : ([row, column], intOfSize i) ∈ cells columns :=
    mem_cells_iff.mpr ⟨column, index, row, i, hcolumn, hrow, rfl⟩
  refine Tensor.get?_write_of_agree hmem (fun b hb => ?_) (hout ▸ cells_lt hcolumns _ hmem)
  obtain ⟨column', index', row', i', hcolumn', hrow', heq⟩ := mem_cells_iff.mp hb
  simp only [Prod.mk.injEq, List.cons.injEq, and_true] at heq
  obtain ⟨⟨rfl, rfl⟩, rfl⟩ := heq
  obtain rfl := Option.some.inj (hcolumn.symm.trans hcolumn')
  rw [Option.some.inj (hrow.symm.trans hrow')]

def blank (rank count : Nat) : Tensor Int64 :=
  ⟨[rank, count], List.replicate (Shape.volume [rank, count]) 0, List.length_replicate⟩

def matrix (rank : Nat) (columns : List Index) : Tensor Int64 :=
  (blank rank columns.length).write (cells columns)

theorem shape_matrix (rank : Nat) (columns : List Index) :
    (matrix rank columns).shape = [rank, columns.length] :=
  Tensor.shape_write _ _

/-- The entries fill the matrix, whatever was there. -/
theorem write_cells_eq {out : Tensor Int64} (hcolumns : ∀ index ∈ columns, index.length = rank)
    (hout : out.shape = [rank, columns.length]) :
    out.write (cells columns) = matrix rank columns := by
  have hblank : (blank rank columns.length).shape = [rank, columns.length] := rfl
  refine Tensor.ext_get? (by rw [Tensor.shape_write, shape_matrix, hout]) fun o ho => ?_
  rw [Tensor.shape_write, hout] at ho
  obtain ⟨row, _, hrow, hrest, rfl⟩ := List.forall₂_cons_right_iff.mp ho
  obtain ⟨column, _, hcolumn, hnil, rfl⟩ := List.forall₂_cons_right_iff.mp hrest
  obtain rfl := List.forall₂_nil_right_iff.mp hnil
  have hindex := List.getElem?_eq_getElem hcolumn
  rw [← hcolumns _ (List.mem_of_getElem? hindex)] at hrow
  have hi := List.getElem?_eq_getElem hrow
  rw [matrix, get?_write_cells hcolumns hout hindex hi, get?_write_cells hcolumns hblank hindex hi]

theorem fill_eq [Element α] {out : Tensor Int64} (hcounted : x.shape.Counted)
    (hout : out.shape = [x.rank, (positions x).length]) :
    (fill x out : Outcome ε (Tensor Int64)) = .ok (out.write (cells (positions x))) := by
  have hcolumns : ∀ index ∈ positions x, index.length = x.rank := by
    intro index hindex
    obtain ⟨a, hread, -⟩ := mem_positions_iff.mp hindex
    exact (Tensor.isSome_get?_iff.mp (Option.isSome_iff_exists.mpr ⟨a, hread⟩)).length_eq
  have hsize : (out.size 1 : Outcome ε Nat) = .ok (positions x).length := by
    rw [Tensor.size, hout]
    rfl
  have hentries :
      ((positions x).zipIdx.flatMap fun (index, column) => index.zipIdx.map fun (i, row) =>
      (row * (positions x).length + column, intOfSize i)) =
        (cells (positions x)).map fun e => (Layout.offset (Layout.strides out.shape) e.1, e.2) := by
    rw [cells, List.map_flatMap]
    refine List.flatMap_congr fun e _ => ?_
    rw [List.map_map]
    refine List.map_congr_left fun e' _ => ?_
    simp [hout, Layout.strides, Layout.offset, Shape.volume, Nat.mul_comm]
  rw [fill, hsize, ok_bind, Layout.checkedCount_eq, if_pos hcounted, ok_bind]
  dsimp only
  rw [hentries, List.foldlM_map]
  refine Tensor.foldlM_entries fun e he u hu => ?_
  rw [← hu]
  exact Tensor.writeAt_offset (hu.symm ▸ hout.symm ▸ cells_lt hcolumns e he) e.2

/-- The kernel fills any matrix of the right shape with the listed positions. -/
theorem run_eq {v : Value} (hcounted : v.shape.Counted) {out : Tensor Int64}
    (hout : out.shape = [v.rank, (listed v).length]) :
    (prepare [some v] [.int out] >>= fun k => k ()) =
      .ok (some [.int (out.write (cells (listed v)))]) := by
  cases v with
  | float x =>
    have hrule : (prepare [some (.float x)] [.int out] >>= fun k => k ()) =
        (fill x out >>= Kernel.filled) := rfl
    rw [hrule, fill_eq hcounted hout]
    rfl
  | int x =>
    have hrule : (prepare [some (.int x)] [.int out] >>= fun k => k ()) =
        (fill x out >>= Kernel.filled) := rfl
    rw [hrule, fill_eq hcounted hout]
    rfl

theorem outputTypes_eq (v : Value) :
    outputTypes [some v] = .ok [⟨.int, [v.rank, (listed v).length]⟩] := by
  cases v <;> rfl

theorem checkedTypes_eq (v : Value) :
    Operator.nonZero.checkedTypes [some v] = .ok [⟨.int, [v.rank, (listed v).length]⟩] :=
  bind_eq_ok.mpr ⟨(), mapError_eq_ok.mpr rfl, outputTypes_eq v⟩

theorem exists_zeros_iff {v : Value} (hv : v.Held) (n : Nat) :
    (∃ z, (Value.zeros ⟨.int, [v.rank, n]⟩ : Outcome ε Value) = .ok z) ↔
      v.rank * n * 8 < byteLimit := by
  have hvolume : Shape.volume [v.rank, n] = v.rank * n := by simp [Shape.volume]
  refine Value.exists_zeros_iff.trans ⟨fun h => hvolume ▸ h.2.2, fun hroom => ?_⟩
  have hrank : v.rank < sizeLimit := hv.rank_lt
  have hproduct : v.rank * n < sizeLimit := by
    simp only [byteLimit, sizeLimit] at hroom ⊢
    omega
  refine ⟨(by decide : 2 * Shape.entryBytes < byteLimit), fun front hfront => ?_, hvolume ▸ hroom⟩
  rcases List.prefix_cons_iff.mp hfront with rfl | ⟨front, rfl, hinner⟩
  · decide
  rcases List.prefix_cons_iff.mp hinner with rfl | ⟨front, rfl, hlast⟩
  · rwa [List.prod_singleton]
  · rwa [List.prefix_nil.mp hlast, List.prod_cons, List.prod_singleton]

end NonZero

/-- The positions of the elements that are different from zero, of numbers or of integers. They are
listed in lexicographic order, and each once. The shape that is settled has a row for each
dimension and a column for each position. Into any output of this shape the kernel writes the
positions as columns, and the operator gives this matrix if memory holds it. -/
theorem NonZero.lists_positions {v : Value} (hv : v.Held) :
    ∃ columns : List Index, columns.Pairwise (· < ·) ∧
      (∀ index, index ∈ columns ↔ v.NonZeroAt index) ∧
      outputTypes [some v] = .ok [⟨.int, [v.rank, columns.length]⟩] ∧
      ∃ y : Tensor Int64, y.shape = [v.rank, columns.length] ∧
        (∀ (column row i : Nat) (index : Index), columns[column]? = some index →
        index[row]? = some i →
          ∃ n, y.get? [row, column] = some n ∧ n.toInt = i) ∧
        (∀ out : Tensor Int64, out.shape = [v.rank, columns.length] →
          (prepare [some v] [.int out] >>= fun k => k ()) = .ok (some [.int y])) ∧
        (Chain.reference.apply .nonZero [some v] = .ok [.int y] ↔
        v.rank * columns.length * 8 < byteLimit) := by
  have hcolumns : ∀ index ∈ listed v, index.length = v.rank := fun index hindex =>
    (lt_of_mem_listed hindex).length_eq
  have hrun : ∀ out : Tensor Int64, out.shape = [v.rank, (listed v).length] →
      (prepare [some v] [.int out] >>= fun k => k ()) =
        .ok (some [.int (matrix v.rank (listed v))]) :=
    fun out hout => by rw [run_eq hv.counted hout, write_cells_eq hcolumns hout]
  refine ⟨listed v, pairwise_listed v, fun index => mem_listed_iff, outputTypes_eq v,
    matrix v.rank (listed v), shape_matrix _ _, fun column row i index hcolumn hrow => ?_, hrun, ?_⟩
  · have hindex := lt_of_mem_listed (List.mem_of_getElem? hcolumn)
    obtain ⟨n, hn, hi⟩ := Related.get_left hindex hrow
    have hsize := hv.size_lt index hindex n (List.mem_of_getElem? hn)
    exact ⟨intOfSize i, get?_write_cells hcolumns rfl hcolumn hrow,
      toInt_intOfSize (hi.trans hsize)⟩
  · constructor
    · intro h
      obtain ⟨types, zeroed, htypes, hzeroed, -⟩ := Chain.apply_reference_eq_ok.mp h
      obtain rfl := ok.inj ((checkedTypes_eq v).symm.trans htypes)
      obtain ⟨z, -, -, hz, -⟩ := mapM_cons_eq_ok hzeroed
      exact (exists_zeros_iff hv _).mp ⟨z, hz⟩
    · intro hroom
      obtain ⟨z, hz⟩ := (exists_zeros_iff hv (listed v).length).mpr hroom
      obtain ⟨t, rfl, hshape⟩ := Value.exists_int_of_zeros hz
      exact Chain.apply_reference_single (checkedTypes_eq v) hz (hrun t hshape)

/-- A NaN and a negative number are listed, and neither zero is. -/
theorem NonZero.lists_positions_numbers :
    ∃ (columns : List Index) (y : Tensor Int64), columns.Pairwise (· < ·) ∧ columns.length = 2 ∧
      [0, 0] ∈ columns ∧ [1, 1] ∈ columns ∧ [0, 1] ∉ columns ∧ y.shape = [2, 2] ∧
      Chain.reference.apply .nonZero
        [some (.float ⟨[2, 2], [Binary32.nan, Binary32.negZero, 0, -1], rfl⟩)] = .ok [.int y] := by
  have hv : (Value.float ⟨[2, 2], [Binary32.nan, Binary32.negZero, 0, -1], rfl⟩).Held := by decide
  obtain ⟨columns, hordered, hmem, htypes, y, hshape, -, -, happly⟩ := lists_positions hv
  have hlength : columns.length = 2 := by
    have hcount :
        outputTypes [some (.float ⟨[2, 2], [Binary32.nan, Binary32.negZero, 0, -1], rfl⟩)] =
        .ok [⟨.int, [2, 2]⟩] := by decide
    have htype := hcount.symm.trans htypes
    simp only [ok.injEq, List.cons.injEq, ValueType.mk.injEq, true_and, and_true] at htype
    exact htype.2.symm
  refine ⟨columns, y, hordered, hlength, (hmem _).mpr ⟨Binary32.nan, by decide⟩,
    (hmem _).mpr ⟨-1, by decide⟩,
    fun h => ?_, hshape.trans (by rw [hlength]; rfl), happly.mpr (by rw [hlength]; decide)⟩
  obtain ⟨a, hread, -, hzero⟩ := (hmem _).mp h
  exact hzero (Option.some.inj hread ▸ rfl)

end TensorGraph
