import TensorGraph.Proofs.NonZeroPositions
import TensorGraph.Proofs.ReducedShapes

/-! Reductions over several axes. The lanes part the positions of a tensor, those over all of the
axes part into those over some of them, and integers are joined in any order and grouping. -/

namespace TensorGraph

open Outcome

variable {ε α : Type}

namespace Index

variable {shape : Shape} {dims first second whole : List Nat} {index start : Index}

def cut (dims : List Nat) (index : Index) : Index :=
  index.zipIdx.map fun s => if s.2 ∈ dims then 0 else s.1

@[simp] theorem length_cut (dims : List Nat) (index : Index) :
    (cut dims index).length = index.length := by
  rw [cut, List.length_map, List.length_zipIdx]

theorem getElem_cut (dims : List Nat) {k : Nat} (hk : k < (cut dims index).length) :
    (cut dims index)[k] = if k ∈ dims then 0 else index.get ⟨k, by simpa using hk⟩ := by
  simp [cut]

theorem getElem_cutShape (dims : List Nat) {k : Nat}
    (hk : k < (Tensor.cutShape shape dims).length) :
    (Tensor.cutShape shape dims)[k] =
      if k ∈ dims then 1 else shape.get ⟨k, by simpa [Tensor.length_cutShape] using hk⟩ := by
  simp [Tensor.cutShape]

/-- Cutting along some dimensions and then along others is cutting along all of them. -/
theorem cut_cut (h : ∀ k, k ∈ whole ↔ k ∈ first ∨ k ∈ second) (index : Index) :
    cut second (cut first index) = cut whole index := by
  refine List.ext_getElem (by simp) fun k hk hk' => ?_
  simp only [getElem_cut, List.get_eq_getElem]
  by_cases hfirst : k ∈ first <;> by_cases hsecond : k ∈ second <;> simp [h, hfirst, hsecond]

theorem cutShape_cutShape (h : ∀ k, k ∈ whole ↔ k ∈ first ∨ k ∈ second) (shape : Shape) :
    Tensor.cutShape (Tensor.cutShape shape first) second = Tensor.cutShape shape whole := by
  refine List.ext_getElem (by simp [Tensor.length_cutShape]) fun k hk hk' => ?_
  simp only [getElem_cutShape, List.get_eq_getElem]
  by_cases hfirst : k ∈ first <;> by_cases hsecond : k ∈ second <;> simp [h, hfirst, hsecond]

theorem cut_lt (dims : List Nat) (h : List.Forall₂ (· < ·) index shape) :
    List.Forall₂ (· < ·) (cut dims index) (Tensor.cutShape shape dims) := by
  rw [List.forall₂_iff_get] at h ⊢
  refine ⟨by rw [length_cut, Tensor.length_cutShape, h.1], fun k hk hk' => ?_⟩
  rw [List.get_eq_getElem, List.get_eq_getElem, getElem_cut, getElem_cutShape]
  split_ifs
  · exact Nat.one_pos
  · exact h.2 k _ _

theorem mem_laneBox_iff (hstart : List.Forall₂ (· < ·) start (Tensor.cutShape shape dims)) :
    index ∈ box (Tensor.laneBox shape dims start) ↔ List.Forall₂ (· < ·) index shape ∧
      cut dims index = start := by
  obtain ⟨hlength, hbelow⟩ := List.forall₂_iff_get.mp hstart
  rw [Tensor.length_cutShape] at hlength
  have hbox : (Tensor.laneBox shape dims start).length = shape.length := by
    simp [Tensor.laneBox, hlength]
  -- along one dimension the lane has all coordinates or only that of its position
  have hcell : ∀ k (hk : k < index.length) (hk' : k < shape.length),
      ((Tensor.laneBox shape dims start).get ⟨k, hbox.symm ▸ hk'⟩).1 ≤ index.get ⟨k, hk⟩ ∧
        index.get ⟨k, hk⟩ < ((Tensor.laneBox shape dims start).get ⟨k, hbox.symm ▸ hk'⟩).2 ↔
      index.get ⟨k, hk⟩ < shape.get ⟨k, hk'⟩ ∧
        (cut dims index).get ⟨k, by simpa using hk⟩ = start.get ⟨k, hlength.symm ▸ hk'⟩ := by
    intro k hk hk'
    have hfirst := hbelow k (hlength.symm ▸ hk') (by simpa [Tensor.length_cutShape] using hk')
    simp only [List.get_eq_getElem, getElem_cut, getElem_cutShape, Tensor.laneBox, List.getElem_map,
      List.getElem_zipIdx, List.getElem_zip, Nat.zero_add, List.contains_iff_mem] at hfirst ⊢
    split_ifs at hfirst ⊢ <;> dsimp only <;> omega
  rw [mem_box_iff, List.forall₂_iff_get, List.forall₂_iff_get]
  constructor
  · rintro ⟨hsame, hinside⟩
    have hrank : index.length = shape.length := hsame.trans hbox
    have hcells := fun k hk hk' => (hcell k hk hk').mp (hinside k hk (hbox.symm ▸ hk'))
    refine ⟨⟨hrank, fun k hk hk' => (hcells k hk hk').1⟩, List.ext_getElem ?_ fun k hk hk' => ?_⟩
    · rw [length_cut, hrank, hlength]
    · exact (hcells k (by simpa using hk) (hlength ▸ hk')).2
  · rintro ⟨⟨hsame, hinside⟩, rfl⟩
    exact ⟨hsame.trans hbox.symm, fun k hk hk' =>
      (hcell k hk (hbox ▸ hk')).mpr ⟨hinside k hk _, rfl⟩⟩

def boxes (shape : Shape) (dims : List Nat) (starts : List Index) : List Index :=
  starts.flatMap fun start => box (Tensor.laneBox shape dims start)

theorem mem_boxes_iff {starts : List Index}
    (hstarts : ∀ start ∈ starts, List.Forall₂ (· < ·) start (Tensor.cutShape shape dims)) :
    index ∈ boxes shape dims starts ↔ List.Forall₂ (· < ·) index shape ∧
      cut dims index ∈ starts := by
  rw [boxes, List.mem_flatMap]
  constructor
  · rintro ⟨start, hstart, hmem⟩
    obtain ⟨hinside, rfl⟩ := (mem_laneBox_iff (hstarts start hstart)).mp hmem
    exact ⟨hinside, hstart⟩
  · rintro ⟨hinside, hstart⟩
    exact ⟨_, hstart, (mem_laneBox_iff (hstarts _ hstart)).mpr ⟨hinside, rfl⟩⟩

theorem nodup_boxes {starts : List Index} (hnodup : starts.Nodup)
    (hstarts : ∀ start ∈ starts, List.Forall₂ (· < ·) start (Tensor.cutShape shape dims)) :
    (boxes shape dims starts).Nodup := by
  rw [boxes, List.nodup_flatMap]
  refine ⟨fun start _ => nodup_box _, hnodup.imp_of_mem fun {a b} ha hb hne => ?_⟩
  intro index hindex hindex'
  obtain ⟨-, rfl⟩ := (mem_laneBox_iff (hstarts a ha)).mp hindex
  obtain ⟨-, rfl⟩ := (mem_laneBox_iff (hstarts b hb)).mp hindex'
  exact hne rfl

/-- Each position is in one lane, and is there once. -/
theorem perm_boxes_all (shape : Shape) (dims : List Nat) :
    (boxes shape dims (all (Tensor.cutShape shape dims))).Perm (all shape) := by
  have hstarts : ∀ start ∈ all (Tensor.cutShape shape dims),
      List.Forall₂ (· < ·) start (Tensor.cutShape shape dims) := fun _ => lt_of_mem_all
  refine (List.perm_ext_iff_of_nodup (nodup_boxes (nodup_all _) hstarts) (nodup_all _)).mpr
    fun index => ?_
  rw [mem_boxes_iff hstarts, mem_all_iff, mem_all_iff]
  exact and_iff_left_of_imp (cut_lt dims)

/-- A lane parts into lanes over some of its dimensions, one for each position of its lane over the
others. -/
theorem perm_boxes_laneBox (h : ∀ k, k ∈ whole ↔ k ∈ first ∨ k ∈ second)
    (hstart : List.Forall₂ (· < ·) start (Tensor.cutShape shape whole)) :
    (boxes shape first (box (Tensor.laneBox (Tensor.cutShape shape first) second start))).Perm
      (box (Tensor.laneBox shape whole start)) := by
  have hsecond :
      List.Forall₂ (· < ·) start (Tensor.cutShape (Tensor.cutShape shape first) second) :=
    (cutShape_cutShape h shape).symm ▸ hstart
  have hstarts : ∀ s ∈ box (Tensor.laneBox (Tensor.cutShape shape first) second start),
      List.Forall₂ (· < ·) s (Tensor.cutShape shape first) :=
        fun _ hs => ((mem_laneBox_iff hsecond).mp hs).1
  refine (List.perm_ext_iff_of_nodup (nodup_boxes (nodup_box _) hstarts) (nodup_box _)).mpr
    fun index => ?_
  rw [mem_boxes_iff hstarts, mem_laneBox_iff hstart, mem_laneBox_iff hsecond, cut_cut h]
  exact and_congr_right fun hindex => and_iff_right (cut_lt first hindex)

end Index

namespace Reduction

/-- The reductions of integers that can be taken apart: sums, products and extreme elements. -/
def IsMonoid (r : Reduction) : Prop := r ∈ [sum, product, max, min]

instance (r : Reduction) : Decidable r.IsMonoid := inferInstanceAs (Decidable (_ ∈ _))

def combine (r : Reduction) (a b : Int64) : Int64 :=
  match r with
  | max => if a ≤ b then b else a
  | min => if a ≤ b then a else b
  | product => a * b
  | _ => a + b

/-- What an empty lane gives. -/
def identity : Reduction → Int64
  | max => Int64.minValue
  | min => Int64.maxValue
  | product => 1
  | _ => 0

variable {r : Reduction}

theorem onInts_eq (hr : r.IsMonoid) (ns : List Int64) :
    r.onInts ns = ns.foldl r.combine r.identity := by
  have hcases : r = sum ∨ r = product ∨ r = max ∨ r = min := by simpa [IsMonoid] using hr
  rcases hcases with rfl | rfl | rfl | rfl <;> rfl

theorem combine_assoc (r : Reduction) (a b c : Int64) :
    r.combine (r.combine a b) c = r.combine a (r.combine b c) := by
  cases r with
  | max | min =>
    simp only [combine, Int64.le_iff_toInt_le]
    split_ifs <;> first | rfl | omega
  | product => exact Int64.mul_assoc a b c
  | l1 | l2 | logSum | logSumExp | mean | sum | sumSquare => exact Int64.add_assoc a b c

theorem combine_comm (r : Reduction) (a b : Int64) : r.combine a b = r.combine b a := by
  cases r with
  | max | min =>
    simp only [combine, Int64.le_iff_toInt_le]
    split_ifs <;> first | rfl | omega | (rw [← Int64.toInt_inj]; omega)
  | product => exact Int64.mul_comm a b
  | l1 | l2 | logSum | logSumExp | mean | sum | sumSquare => exact Int64.add_comm a b

theorem identity_combine (r : Reduction) (a : Int64) : r.combine r.identity a = a := by
  cases r with
  | max => exact if_pos (Int64.minValue_le a)
  | min =>
    by_cases h : Int64.maxValue ≤ a
    · exact (if_pos h).trans (Int64.le_antisymm h (Int64.le_maxValue a))
    · exact if_neg h
  | product => exact Int64.one_mul a
  | l1 | l2 | logSum | logSumExp | mean | sum | sumSquare => exact Int64.zero_add a

theorem foldl_combine (r : Reduction) (a : Int64) (ns : List Int64) :
    ns.foldl r.combine a = r.combine a (ns.foldl r.combine r.identity) := by
  induction ns generalizing a with
  | nil => rw [List.foldl_nil, List.foldl_nil, combine_comm, identity_combine]
  | cons n ns ih => rw [List.foldl_cons, List.foldl_cons, ih, identity_combine, ih n, combine_assoc]

theorem onInts_append (hr : r.IsMonoid) (ms ns : List Int64) :
    r.onInts (ms ++ ns) = r.combine (r.onInts ms) (r.onInts ns) := by
  rw [onInts_eq hr, onInts_eq hr, onInts_eq hr, List.foldl_append, foldl_combine]

theorem onInts_flatMap (hr : r.IsMonoid) {β : Type} (pieces : List β) (f : β → List Int64) :
    r.onInts (pieces.flatMap f) = r.onInts (pieces.map fun piece => r.onInts (f piece)) := by
  induction pieces with
  | nil => rfl
  | cons piece pieces ih =>
    have hcons : r.onInts (r.onInts (f piece) :: pieces.map fun piece => r.onInts (f piece)) =
        r.combine (r.onInts (f piece)) (r.onInts (pieces.map fun piece => r.onInts (f piece))) := by
      rw [onInts_eq hr (_ :: _), List.foldl_cons, foldl_combine, identity_combine, ← onInts_eq hr]
    rw [List.flatMap_cons, onInts_append hr, ih, List.map_cons, hcons]

theorem onInts_perm (hr : r.IsMonoid) {ms ns : List Int64} (h : ms.Perm ns) :
    r.onInts ms = r.onInts ns := by
  rw [onInts_eq hr, onInts_eq hr]
  refine h.foldl_eq' (fun a _ b _ c => ?_) _
  rw [combine_assoc, combine_assoc, r.combine_comm a b]

theorem onInts_singleton (hr : r.IsMonoid) (n : Int64) : r.onInts [n] = n := by
  rw [onInts_eq hr, List.foldl_cons, List.foldl_nil, identity_combine]

end Reduction

namespace Tensor

variable {r : Reduction} {x : Tensor Int64} {dims first second whole : List Nat}

theorem laneAt_empty {t : Tensor α} {dim : Nat} (hsize : t.shape[dim]? = some 0) {start : Index}
    (hstart : List.Forall₂ (· < ·) start (cutShape t.shape dims)) : t.laneAt dims start = [] := by
  refine List.filterMap_eq_nil_iff.mpr fun index hindex => ?_
  obtain ⟨hinside, -⟩ := (Index.mem_laneBox_iff hstart).mp hindex
  obtain ⟨i, -, hlt⟩ := Related.get_right hinside hsize
  exact absurd hlt (Nat.not_lt_zero i)

theorem onInts_laneAt (hr : r.IsMonoid) (h : ∀ k, k ∈ whole ↔ k ∈ first ∨ k ∈ second)
    {start : Index} (hstart : List.Forall₂ (· < ·) start (cutShape x.shape whole)) :
    r.onInts ((x.joined r.onInts first true).laneAt second start) =
      r.onInts (x.laneAt whole start) := by
  have hsecond : List.Forall₂ (· < ·) start (cutShape (cutShape x.shape first) second) :=
    (Index.cutShape_cutShape h x.shape).symm ▸ hstart
  have hpieces : (x.joined r.onInts first true).laneAt second start =
      (Index.box (laneBox (cutShape x.shape first) second start)).map fun s =>
        r.onInts (x.laneAt first s) := by
    have hreads : ∀ s ∈ Index.box (laneBox (cutShape x.shape first) second start),
        (x.joined r.onInts first true).get? s = some (r.onInts (x.laneAt first s)) := fun s hs =>
      x.get?_joined r.onInts first true ((Index.mem_laneBox_iff hsecond).mp hs).1
    exact (List.filterMap_congr hreads).trans (congrFun List.filterMap_eq_map _)
  have hlane : (Index.box (laneBox (cutShape x.shape first) second start)).flatMap
      (x.laneAt first) =
      (Index.boxes x.shape first
        (Index.box (laneBox (cutShape x.shape first) second start))).filterMap x.get? := by
    rw [Index.boxes, List.filterMap_flatMap]
    rfl
  rw [hpieces, ← Reduction.onInts_flatMap hr, hlane]
  exact Reduction.onInts_perm hr ((Index.perm_boxes_laneBox h hstart).filterMap x.get?)

/-- A reduction over all of some dimensions is one over the others of that over a part of them. -/
theorem joined_joined (hr : r.IsMonoid) (h : ∀ k, k ∈ whole ↔ k ∈ first ∨ k ∈ second)
    (keep keep' : Bool) :
    ((x.joined r.onInts first true).joined r.onInts second keep).data =
      (x.joined r.onInts whole keep').data := by
  have hshape : cutShape (x.joined r.onInts first true).shape second = cutShape x.shape whole :=
    Index.cutShape_cutShape h x.shape
  have hdata : ((x.joined r.onInts first true).joined r.onInts second keep).data =
      (Index.all (cutShape (x.joined r.onInts first true).shape second)).map
        fun start => r.onInts ((x.joined r.onInts first true).laneAt second start) := rfl
  rw [hdata, hshape]
  exact List.map_congr_left fun start hstart => onInts_laneAt hr h (Index.lt_of_mem_all hstart)

theorem cutShape_nil (shape : Shape) : cutShape shape [] = shape := by
  refine List.ext_getElem (length_cutShape _ _) fun k hk hk' => ?_
  rw [Index.getElem_cutShape, if_neg (by simp)]
  rfl

theorem dropFrom_nil_dims (xs : List Nat) : dropFrom [] 0 xs = xs := dropFrom_of_lt (by simp) xs

/-- A reduction over no dimensions changes nothing. -/
theorem joined_nil (hr : r.IsMonoid) (x : Tensor Int64) (keep : Bool) :
    x.joined r.onInts [] keep = x := by
  have hshape : (x.joined r.onInts [] keep).shape = x.shape := by
    have hreduced : (x.joined r.onInts [] keep).shape = reducedShape x.shape [] keep := rfl
    rw [hreduced, reducedShape, dropFrom_nil_dims, cutShape_nil, ite_self]
  refine ext_get? hshape fun index hindex => ?_
  rw [hshape] at hindex
  obtain ⟨a, ha⟩ := Option.isSome_iff_exists.mp (isSome_get?_iff.mpr hindex)
  have hread := x.get?_joined r.onInts [] keep ((cutShape_nil x.shape).symm ▸ hindex)
  have hposition : reducedIndex [] keep index = index := by
    rw [reducedIndex, dropFrom_nil_dims, ite_self]
  have hpoint : laneBox x.shape [] index = index.map fun i => (i, i + 1) := by
    have hlength := hindex.length_eq
    exact List.ext_getElem (by simp [laneBox, hlength]) fun k hk hk' => by simp [laneBox]
  rw [hposition, laneAt, hpoint, Index.box_point, List.filterMap_cons_some ha, List.filterMap_nil,
    Reduction.onInts_singleton hr] at hread
  rw [hread, ha]

/-- Where no reduced dimension is of size zero, a reduction takes no more room than its input. -/
theorem cutShape_le {shape : Shape} (h : ∀ dim ∈ dims, shape[dim]? ≠ some 0) :
    List.Forall₂ (· ≤ ·) (cutShape shape dims) shape := by
  refine List.forall₂_iff_get.mpr ⟨length_cutShape _ _, fun k hk hk' => ?_⟩
  rw [List.get_eq_getElem, Index.getElem_cutShape]
  split_ifs with hdim
  · have hne := h k hdim
    rw [List.getElem?_eq_getElem hk', ne_eq, Option.some.injEq] at hne
    exact Nat.one_le_iff_ne_zero.mpr hne
  · exact Nat.le_refl _

end Tensor

namespace Reduce

/-- The dimensions over which a reduction runs, for the axes of the second input if this is
given. -/
def Joins (op : Reduce) (given : Option (List Int64)) (rank : Nat) (dims : List Nat) : Prop :=
  op.selectAxes (given.map some) = .keep ∧ dims = [] ∨
    op.selectAxes (given.map some) = .all ∧ dims = List.range rank ∨
    ∃ axes, op.selectAxes (given.map some) = .some axes ∧ Axis.resolveAll rank axes = .ok dims

structure Runs (op : Reduce) (inputs : ValueInputs) (x : Tensor Int64) (dims : List Nat) : Prop
  where
  arity : (Operator.reduce op).demandArity inputs.length = .ok ()
  input : Inputs.find? inputs 0 = some (.int x)
  axes : ∃ given, inputs.findInts? 1 = .ok given ∧ op.Joins given x.shape.length dims

variable {op : Reduce} {inputs : ValueInputs} {x : Tensor Int64} {dims : List Nat}

theorem selectAxes_described {given : Option (List Int64)} (h : inputs.findInts? 1 = .ok given) :
    (Inputs.find? (inputs.zipIdx.map (Operator.reduce op).describeInput) 1).map (·.ints?) =
      given.map some := by
  rw [Operator.find?_told]
  cases given with
  | none =>
    cases hfind : Inputs.find? inputs 1 with
    | none => rfl
    | some v =>
      rw [ValueInputs.findInts?, hfind] at h
      obtain ⟨_, -, h⟩ := bind_eq_ok.mp h
      cases h
  | some ns =>
    obtain ⟨t, hfind, hrank, rfl⟩ := ValueInputs.vector_of_findInts? h
    rw [hfind, Option.map_some, Option.map_some, Operator.ints?_told rfl hrank]
    rfl

/-- A reduction that joins lanes is told the reduced shape. -/
theorem infer_joined {axes : Axes} {axes? : Option (List Int64)} {given : Option (List Int64)}
    (hinput : Inputs.find? inputs 0 = some (.int x)) (hgiven : inputs.findInts? 1 = .ok given)
    (hselect : op.selectAxes (given.map some) = axes) (hkeep : axes ≠ .keep)
    (houtput : ∀ t : SymTensor, op.outputShape t axes = t.shape.reduce axes? op.keepDims)
    (hdims : Axis.Selects x.shape.length dims axes?) :
    ∃ w, (Operator.reduce op).infer (inputs.zipIdx.map (Operator.reduce op).describeInput) =
      .ok [w] ∧
      w.dtype = .int ∧ w.shape = .ofShape (Tensor.reducedShape x.shape dims op.keepDims) := by
  have hshape : op.outputShape ((Operator.reduce op).told 0 (.int x)) axes =
      .ok (.ofShape (Tensor.reducedShape x.shape dims op.keepDims)) := by
    rw [houtput, Operator.shape_told]
    exact SymShape.reduce_ofShape op.keepDims hdims
  have hcases := op.joined_cases ((Operator.reduce op).told 0 (.int x)) axes
    (.ofShape (Tensor.reducedShape x.shape dims op.keepDims))
  refine ⟨op.joined ((Operator.reduce op).told 0 (.int x)) axes
    (.ofShape (Tensor.reducedShape x.shape dims op.keepDims)), ?_, ?_, ?_⟩
  · rw [Operator.infer, infer_eq, Operator.demand_told _ hinput, ok_bind,
      selectAxes_described hgiven, hselect]
    simp only [if_neg hkeep, hshape, ok_bind]
    rfl
  · rcases hcases with hw | ⟨_, hw⟩ <;> rw [hw] <;> exact Operator.dtype_told _ _ _
  · rcases hcases with hw | ⟨_, hw⟩ <;> rw [hw] <;> rfl

theorem kernel_eq (hr : op.reduction.IsMonoid) (z : Tensor Int64) :
    kernel op.reduction (.int x) dims (.int z) () =
      (x.lanes dims >>= fun ls => .ok (z.overwrite (ls.map op.reduction.onInts))) >>=
      Kernel.filled := by
  have hsupports : op.reduction.supports .int = true := by
    have hall : ∀ r ∈ [Reduction.sum, .product, .max, .min], r.supports .int = true := by decide
    exact hall _ hr
  have hdtype : (Value.int x).dtype = .int := rfl
  have hfill : (fill (fun _ => True) op.reduction.onInts x dims z : Outcome OpError _) =
      x.lanes dims >>= fun ls => .ok (z.overwrite (ls.map op.reduction.onInts)) :=
    bind_congr fun ls => by rw [Outcome.demand, if_pos fun _ _ => trivial, ok_bind]; rfl
  rw [kernel, hdtype, hsupports, ← hfill]
  rfl

theorem run_kept {given : Option (List Int64)} {z : Tensor Int64}
    (hinput : Inputs.find? inputs 0 = some (.int x)) (hgiven : inputs.findInts? 1 = .ok given)
    (hselect : op.selectAxes (given.map some) = .keep) (hz : z.shape = x.shape) :
    ((Operator.reduce op).prepare .none inputs [.int z] >>= fun run => run ()) =
      (.ok x : Outcome OpError _) >>= Kernel.filled := by
  have hdemand : ValueInputs.demand inputs 0 = .ok (.int x) := by
    rw [ValueInputs.demand, hinput]
    rfl
  have hprepare : (Operator.reduce op).prepare .none inputs [.int z] = op.prepare inputs [.int z] :=
    rfl
  have hcount : x.count = z.count := by rw [Tensor.count_eq, Tensor.count_eq, hz]
  have hcopy : Kernel.copy (.int x) (.int z) () = (do
      .refuseIf (x.count ≠ z.count) (.shape .lengthsDiffer)
      return z.overwrite x.data) >>= Kernel.filled := rfl
  have hkernel : op.prepare inputs [.int z] = .ok (Kernel.copy (.int x) (.int z)) := by
    rw [prepare, hdemand, ok_bind, Kernel.single, ok_bind, hgiven, ok_bind, hselect]
    rfl
  rw [hprepare, hkernel, ok_bind, hcopy, refuseIf_neg (not_not.mpr hcount), ok_bind,
    Tensor.overwrite_eq hz]
  rfl

theorem apply_eq_ok_iff (hr : op.reduction.IsMonoid) (hx : (Value.int x).Held)
    (h : op.Runs inputs x dims) (vs : List Value) :
    Chain.reference.apply (.reduce op) inputs = .ok vs ↔
      (∀ n ∈ Tensor.cutShape x.shape dims, n < intLimit) ∧
      Shape.Counted (Tensor.cutShape x.shape dims) ∧
      (Tensor.cutShape x.shape dims).volume * 8 < byteLimit ∧
        vs = [.int (x.joined op.reduction.onInts dims op.keepDims)] := by
  obtain ⟨harity, hinput, given, hgiven, hjoins⟩ := h
  have hdemand : ValueInputs.demand inputs 0 = .ok (.int x) := by
    rw [ValueInputs.demand, hinput]
    rfl
  have hprepare : ∀ z, (Operator.reduce op).prepare .none inputs [.int z] =
      op.prepare inputs [.int z] := fun _ => rfl
  rcases hjoins with ⟨hselect, rfl⟩ | ⟨hselect, rfl⟩ | ⟨axes, hselect, hdims⟩
  · have hinfer :
        (Operator.reduce op).infer (inputs.zipIdx.map (Operator.reduce op).describeInput) =
        .ok [(Operator.reduce op).told 0 (.int x)] := by
      rw [Operator.infer, infer_eq, Operator.demand_told _ hinput, ok_bind,
        selectAxes_described hgiven, hselect]
      rfl
    have hzeros : ∃ z, (Value.zeros ⟨.int, x.shape⟩ : Outcome OpError Value) = .ok z :=
      hx.exists_zeros
    have hroom : x.shape.volume * 8 < byteLimit := (Value.int x).count_eq_volume ▸ hx.room
    rw [Chain.apply_eq_ok_iff (x := x) (.reduce op) harity rfl rfl hinfer
      (Operator.dtype_told _ _ _) (Operator.shape_told _ _ _) hx.sizes fun _ =>
      run_kept hinput hgiven hselect, Tensor.cutShape_nil, Tensor.joined_nil hr]
    refine and_congr_right fun _ => ?_
    constructor
    · rintro ⟨-, y, ⟨⟩, rfl⟩
      exact ⟨hx.counted, hroom, rfl⟩
    · rintro ⟨-, -, rfl⟩
      exact ⟨hzeros, x, rfl, rfl⟩
  · obtain ⟨w, hinfer, hdtype, hshape⟩ :=
      infer_joined hinput hgiven hselect (by simp) (fun _ => rfl)
      (rfl : Axis.Selects x.shape.length _ none)
    refine Chain.apply_joined_iff (.reduce op) hx.sizes hx.rank harity rfl rfl hinfer hdtype hshape
      fun z _ => ?_
    rw [← kernel_eq hr, hprepare, prepare, hdemand, ok_bind, Kernel.single, ok_bind, hgiven,
      ok_bind, hselect]
    rfl
  · obtain ⟨w, hinfer, hdtype, hshape⟩ :=
      infer_joined hinput hgiven hselect (by simp) (fun _ => rfl)
      (hdims : Axis.Selects x.shape.length dims (some axes))
    refine Chain.apply_joined_iff (.reduce op) hx.sizes hx.rank harity rfl rfl hinfer hdtype hshape
      fun z _ => ?_
    have hresolved : Axis.resolveAll (Value.int x).rank axes = .ok dims := hdims
    rw [← kernel_eq hr, hprepare, prepare, hdemand, ok_bind, Kernel.single, ok_bind, hgiven,
      ok_bind, hselect]
    dsimp only
    rw [hresolved]
    rfl

/-- Only a reduced dimension of size zero can make a reduction larger than its input. -/
theorem room_iff (hx : (Value.int x).Held) (dims : List Nat) :
    Shape.Counted (Tensor.cutShape x.shape dims) ∧
      (Tensor.cutShape x.shape dims).volume * 8 < byteLimit ↔
      ((∃ dim ∈ dims, x.shape[dim]? = some 0) →
        Shape.Counted (Tensor.cutShape x.shape dims) ∧
        (Tensor.cutShape x.shape dims).volume * 8 < byteLimit) := by
  refine ⟨fun h _ => h, fun h => ?_⟩
  by_cases hempty : ∃ dim ∈ dims, x.shape[dim]? = some 0
  · exact h hempty
  · exact hx.fits_of_le (Tensor.cutShape_le fun dim hdim hzero => hempty ⟨dim, hdim, hzero⟩)

/-- Each element of a reduction joins the lane that belongs to its position; empty lanes give the
identity. -/
structure Gives (op : Reduce) (x : Tensor Int64) (dims : List Nat) (y : Tensor Int64) : Prop where
  shape_eq : y.shape = Tensor.reducedShape x.shape dims op.keepDims
  element : ∀ start, List.Forall₂ (· < ·) start (Tensor.cutShape x.shape dims) →
    y.get? (Tensor.reducedIndex dims op.keepDims start) =
      some (op.reduction.onInts (x.laneAt dims start))
  identity : (∃ dim ∈ dims, x.shape[dim]? = some 0) → ∀ a ∈ y.data, a = op.reduction.identity

theorem gives_joined (hr : op.reduction.IsMonoid) (x : Tensor Int64) (dims : List Nat) :
    op.Gives x dims (x.joined op.reduction.onInts dims op.keepDims) where
  shape_eq := rfl
  element := fun _ hstart => x.get?_joined op.reduction.onInts dims op.keepDims hstart
  identity := by
    rintro ⟨dim, -, hzero⟩ a ha
    obtain ⟨start, hstart, rfl⟩ := List.mem_map.mp ha
    rw [Tensor.laneAt_empty hzero (Index.lt_of_mem_all hstart), Reduction.onInts_eq hr,
      List.foldl_nil]

/-- Memory holds a reduction that keeps reduced dimensions. -/
theorem held_joined (hx : (Value.int x).Held) {join : List Int64 → Int64}
    (hsizes : ∀ n ∈ Tensor.cutShape x.shape dims, n < intLimit)
    (hcounted : Shape.Counted (Tensor.cutShape x.shape dims))
    (hroom : (Tensor.cutShape x.shape dims).volume * 8 < byteLimit) :
    (Value.int (x.joined join dims true)).Held := by
  have hshape : (Value.int (x.joined join dims true)).shape = Tensor.cutShape x.shape dims := rfl
  refine ⟨⟨fun n hn => (hsizes n hn).trans (by decide), ?_⟩, hcounted, ?_⟩
  · rw [hshape, Tensor.length_cutShape]
    exact hx.rank
  · rw [Value.bytes, Value.count_eq_volume, hshape]
    exact hroom

end Reduce

/-- Reductions over several axes decompose. A reduction over some dimensions is given if signed
64-bit integers hold the sizes that are left and there is room for it, which only a reduced
dimension of size zero can prevent. The lanes that are joined part the positions of the input, so
that each element is in just one of them, and whether reduced dimensions are kept does not change
the elements. Where a reduction over a part of the dimensions that keeps them is given, one over
the others of its result has the same elements, and gives the same tensor if reduced dimensions are
kept. -/
theorem Reduce.decomposes {op : Reduce} {inputs : ValueInputs} {x : Tensor Int64} {dims : List Nat}
    (hr : op.reduction.IsMonoid) (hx : (Value.int x).Held) (h : op.Runs inputs x dims) :
    ((∃ vs, Chain.reference.apply (.reduce op) inputs = .ok vs) ↔
      (∀ n ∈ Tensor.cutShape x.shape dims, n < intLimit) ∧
        ((∃ dim ∈ dims, x.shape[dim]? = some 0) →
          Shape.Counted (Tensor.cutShape x.shape dims) ∧
          (Tensor.cutShape x.shape dims).volume * 8 < byteLimit)) ∧
    ((Index.all (Tensor.cutShape x.shape dims)).flatMap
      fun start => Index.box (Tensor.laneBox x.shape dims start)).Perm (Index.all x.shape) ∧
    (∀ vs, Chain.reference.apply (.reduce op) inputs = .ok vs → ∃ y, vs = [.int y] ∧
      op.Gives x dims y ∧
      ∀ keep, ∃ y', Chain.reference.apply (.reduce { op with keepDims := keep }) inputs =
        .ok [.int y'] ∧ y'.data = y.data) ∧
    ∀ (first second : Reduce) (firstInputs secondInputs : ValueInputs)
      (firstDims secondDims : List Nat) (z : Tensor Int64),
      first.reduction = op.reduction → second.reduction = op.reduction → first.keepDims = true →
      (∀ k, k ∈ dims ↔ k ∈ firstDims ∨ k ∈ secondDims) → first.Runs firstInputs x firstDims →
      Chain.reference.apply (.reduce first) firstInputs = .ok [.int z] →
      second.Runs secondInputs z secondDims →
      ((∃ vs, Chain.reference.apply (.reduce second) secondInputs = .ok vs) ↔
        ∃ vs, Chain.reference.apply (.reduce op) inputs = .ok vs) ∧
      ∀ y, Chain.reference.apply (.reduce op) inputs = .ok [.int y] →
        ∃ y', Chain.reference.apply (.reduce second) secondInputs = .ok [.int y'] ∧
        y'.data = y.data ∧
          (op.keepDims = true → second.keepDims = true → y' = y) := by
  have happly := apply_eq_ok_iff hr hx h
  refine ⟨?_, Index.perm_boxes_all x.shape dims, fun vs hvs => ?_, ?_⟩
  · rw [← room_iff hx]
    simp only [happly]
    exact ⟨fun ⟨_, hsizes, hcounted, hroom, _⟩ => ⟨hsizes, hcounted, hroom⟩,
      fun ⟨hsizes, hcounted, hroom⟩ => ⟨_, hsizes, hcounted, hroom, rfl⟩⟩
  · obtain ⟨hsizes, hcounted, hroom, rfl⟩ := (happly vs).mp hvs
    refine ⟨_, rfl, gives_joined hr x dims, fun keep => ?_⟩
    have hkept : ({ op with keepDims := keep } : Reduce).Runs inputs x dims :=
      ⟨h.arity, h.input, h.axes⟩
    have hgiven := @apply_eq_ok_iff { op with keepDims := keep } inputs x dims hr hx hkept
    exact ⟨_, (hgiven _).mpr ⟨hsizes, hcounted, hroom, rfl⟩, rfl⟩
  · intro first second firstInputs secondInputs firstDims secondDims z hfirst hsecond hkeep hdims
      hruns hz hruns'
    obtain ⟨hsizes, hcounted, hroom, heq⟩ := (apply_eq_ok_iff (hfirst ▸ hr) hx hruns _).mp hz
    rw [hfirst, hkeep] at heq
    obtain rfl : z = x.joined op.reduction.onInts firstDims true := by simpa using heq
    have hcut : Tensor.cutShape (x.joined op.reduction.onInts firstDims true).shape secondDims =
        Tensor.cutShape x.shape dims := Index.cutShape_cutShape hdims x.shape
    have hsecondly := apply_eq_ok_iff (hsecond ▸ hr) (held_joined hx hsizes hcounted hroom) hruns'
    rw [hcut, hsecond] at hsecondly
    constructor
    · simp only [happly, hsecondly]
      constructor
      · exact fun ⟨_, hsizes, hcounted, hroom, _⟩ => ⟨_, hsizes, hcounted, hroom, rfl⟩
      · exact fun ⟨_, hsizes, hcounted, hroom, _⟩ => ⟨_, hsizes, hcounted, hroom, rfl⟩
    · intro y hy
      obtain ⟨hsizes, hcounted, hroom, heq⟩ := (happly _).mp hy
      obtain rfl : y = x.joined op.reduction.onInts dims op.keepDims := by simpa using heq
      have hdata := Tensor.joined_joined (x := x) hr hdims second.keepDims op.keepDims
      refine ⟨_, (hsecondly _).mpr ⟨hsizes, hcounted, hroom, rfl⟩, hdata, fun hop hkept => ?_⟩
      rw [Tensor.ext_iff]
      refine ⟨?_, hdata⟩
      rw [hop, hkept]
      exact hcut

/-- A sum over both dimensions of a matrix is that along the row of the sums of its columns. -/
theorem Reduce.decomposes_matrix :
    Chain.reference.apply (.reduce ⟨.sum, none, true, false⟩)
        [some (.int ⟨[2, 3], [1, 2, 3, 4, 5, 6], rfl⟩)] = .ok [.int ⟨[1, 1], [21], rfl⟩] ∧
    Chain.reference.apply (.reduce ⟨.sum, some [0], true, false⟩)
        [some (.int ⟨[2, 3], [1, 2, 3, 4, 5, 6], rfl⟩)] = .ok [.int ⟨[1, 3], [5, 7, 9], rfl⟩] ∧
    Chain.reference.apply (.reduce ⟨.sum, some [1], true, false⟩)
        [some (.int ⟨[1, 3], [5, 7, 9], rfl⟩)] = .ok [.int ⟨[1, 1], [21], rfl⟩] := by
  have hx : (Value.int ⟨[2, 3], [1, 2, 3, 4, 5, 6], rfl⟩).Held := by decide
  have hboth :
      (⟨.sum, none, true, false⟩ : Reduce).Runs [some (.int ⟨[2, 3], [1, 2, 3, 4, 5, 6], rfl⟩)]
      ⟨[2, 3], [1, 2, 3, 4, 5, 6], rfl⟩ [0, 1] := ⟨rfl, rfl, none, rfl, .inr (.inl ⟨rfl, rfl⟩)⟩
  have hcolumns :
      (⟨.sum, some [0], true, false⟩ : Reduce).Runs [some (.int ⟨[2, 3], [1, 2, 3, 4, 5, 6], rfl⟩)]
      ⟨[2, 3], [1, 2, 3, 4, 5, 6], rfl⟩ [0] :=
        ⟨rfl, rfl, none, rfl, .inr (.inr ⟨[0], rfl, by decide +kernel⟩)⟩
  have hrow : (⟨.sum, some [1], true, false⟩ : Reduce).Runs [some (.int ⟨[1, 3], [5, 7, 9], rfl⟩)]
      ⟨[1, 3], [5, 7, 9], rfl⟩ [1] :=
        ⟨rfl, rfl, none, rfl, .inr (.inr ⟨[1], rfl, by decide +kernel⟩)⟩
  have hdims : ∀ k : Nat, k ∈ [0, 1] ↔ k ∈ [0] ∨ k ∈ [1] := by simp
  have happly : Chain.reference.apply (.reduce ⟨.sum, none, true, false⟩)
      [some (.int ⟨[2, 3], [1, 2, 3, 4, 5, 6], rfl⟩)] = .ok [.int ⟨[1, 1], [21], rfl⟩] := by
        decide +kernel
  have hfirst : Chain.reference.apply (.reduce ⟨.sum, some [0], true, false⟩)
      [some (.int ⟨[2, 3], [1, 2, 3, 4, 5, 6], rfl⟩)] = .ok [.int ⟨[1, 3], [5, 7, 9], rfl⟩] := by
        decide +kernel
  obtain ⟨-, -, -, hparts⟩ := decomposes (by decide) hx hboth
  obtain ⟨-, hsecond⟩ :=
    hparts ⟨.sum, some [0], true, false⟩ ⟨.sum, some [1], true, false⟩ _ _ _ _ _ rfl rfl rfl hdims
    hcolumns hfirst hrow
  obtain ⟨_, hy, -, hsame⟩ := hsecond _ happly
  rw [hsame rfl rfl] at hy
  exact ⟨happly, hfirst, hy⟩

/-- The sizes that are left overflow though there are no elements, and do not if all dimensions are
reduced. -/
theorem Reduce.decomposes_fault_empty :
    (Value.int ⟨[0, 2 ^ 32, 2 ^ 32, 0], [], rfl⟩).Held ∧
    (Operator.reduce ⟨.sum, some [0], true, false⟩).checkedTypes
        [some (.int ⟨[0, 2 ^ 32, 2 ^ 32, 0], [], rfl⟩)] = .ok [⟨.int, [1, 2 ^ 32, 2 ^ 32, 0]⟩] ∧
    Chain.reference.apply (.reduce ⟨.sum, some [0], true, false⟩)
        [some (.int ⟨[0, 2 ^ 32, 2 ^ 32, 0], [], rfl⟩)] = .fault ∧
    Chain.reference.apply (.reduce ⟨.sum, none, true, false⟩)
        [some (.int ⟨[0, 2 ^ 32, 2 ^ 32, 0], [], rfl⟩)] = .ok [.int ⟨[1, 1, 1, 1], [0], rfl⟩] :=
  ⟨by decide, by decide +kernel, by decide +kernel, by decide +kernel⟩

end TensorGraph
