import TensorGraph.Proofs.AxisPads
import TensorGraph.Proofs.BlockMoves
import TensorGraph.Proofs.GatheredSlices

/-! Tensors that are repeated along their dimensions, all at once or along one dimension after the
other by joining copies. In either way a position reads the one that its coordinates modulo the
sizes lead to, so that it does not matter in which order the dimensions are taken. -/

namespace TensorGraph

open Outcome

variable {ε α : Type}

namespace Tensor

variable {x y z : Tensor α} {rs ss : List Nat} {index : Index}

/-- Whether `y` runs through `x` as often as listed for each dimension. -/
structure Repeats (rs : List Nat) (x y : Tensor α) : Prop where
  length_eq : rs.length = x.shape.length
  shape_eq : y.shape = List.zipWith (· * ·) x.shape rs
  get?_eq : ∀ index, List.Forall₂ (· < ·) index y.shape →
    y.get? index = x.get? (List.zipWith (· % ·) index x.shape)

theorem zipWith_mul_one (shape : Shape) :
    List.zipWith (· * ·) shape (List.replicate shape.length 1) = shape := by
  induction shape with
  | nil => rfl
  | cons n shape ih => simp [List.replicate_succ, ih]

theorem zipWith_mod_of_lt {shape : Shape} (h : List.Forall₂ (· < ·) index shape) :
    List.zipWith (· % ·) index shape = index := by
  induction h with
  | nil => rfl
  | cons hi _ ih => rw [List.zipWith_cons_cons, Nat.mod_eq_of_lt hi, ih]

theorem zipWith_mod_lt {shape : Shape}
    (h : List.Forall₂ (· < ·) index (List.zipWith (· * ·) shape rs))
    (hlength : rs.length = shape.length) :
    List.Forall₂ (· < ·) (List.zipWith (· % ·) index shape) shape := by
  induction shape generalizing index rs with
  | nil =>
    rw [List.zipWith_nil_left] at h
    cases h
    exact .nil
  | cons n shape ih =>
    obtain ⟨r, rs, rfl⟩ := List.exists_cons_of_length_eq_add_one hlength
    obtain ⟨i, is, hi, his, rfl⟩ := List.forall₂_cons_right_iff.mp h
    have hpos : 0 < n := Nat.pos_of_mul_pos_right (Nat.zero_lt_of_lt hi)
    exact .cons (Nat.mod_lt i hpos) (ih his (Nat.succ.inj hlength))

theorem zipWith_mod_mul {shape : Shape} (hindex : index.length = shape.length)
    (hlength : rs.length = shape.length) :
    List.zipWith (· % ·) (List.zipWith (· % ·) index (List.zipWith (· * ·) shape rs)) shape =
      List.zipWith (· % ·) index shape := by
  induction shape generalizing index rs with
  | nil => simp
  | cons n shape ih =>
    obtain ⟨r, rs, rfl⟩ := List.exists_cons_of_length_eq_add_one hlength
    obtain ⟨i, is, rfl⟩ := List.exists_cons_of_length_eq_add_one hindex
    simp [ih (Nat.succ.inj hindex) (Nat.succ.inj hlength)]

namespace Repeats

theorem unique (hy : Repeats rs x y) (hz : Repeats rs x z) : y = z := by
  have hshape : y.shape = z.shape := hy.shape_eq.trans hz.shape_eq.symm
  exact ext_get? hshape fun index hindex =>
    (hy.get?_eq index hindex).trans (hz.get?_eq index (hshape ▸ hindex)).symm

theorem refl (x : Tensor α) : Repeats (List.replicate x.shape.length 1) x x :=
  ⟨List.length_replicate, (zipWith_mul_one x.shape).symm,
    fun index hindex => by rw [zipWith_mod_of_lt hindex]⟩

theorem trans (hy : Repeats rs x y) (hz : Repeats ss y z) :
    Repeats (List.zipWith (· * ·) rs ss) x z := by
  have hrank : y.shape.length = x.shape.length := by simp [hy.shape_eq, hy.length_eq]
  have hlength : ss.length = rs.length := by rw [hz.length_eq, hrank, hy.length_eq]
  refine ⟨by simp [hlength, hy.length_eq], ?_, fun index hindex => ?_⟩
  · rw [hz.shape_eq, hy.shape_eq]
    exact List.ext_getElem (by simp [Nat.min_assoc]) fun i _ _ => by simp [Nat.mul_assoc]
  · have hinside : List.Forall₂ (· < ·) (List.zipWith (· % ·) index y.shape) y.shape :=
      zipWith_mod_lt (hz.shape_eq ▸ hindex) hz.length_eq
    have hindexed : index.length = x.shape.length := by
      rw [hindex.length_eq, hz.shape_eq, List.length_zipWith, hz.length_eq, Nat.min_self, hrank]
    rw [hz.get?_eq index hindex, hy.get?_eq _ hinside, hy.shape_eq,
      zipWith_mod_mul hindexed hy.length_eq]

theorem data_eq_nil (h : Repeats rs x y) (hzero : 0 ∈ rs) : y.data = [] := by
  obtain ⟨i, hi, hzero⟩ := List.getElem_of_mem hzero
  have hmem : 0 ∈ y.shape := by
    rw [h.shape_eq]
    refine List.mem_iff_getElem.mpr ⟨i, by simp [hi, ← h.length_eq], by simp [hzero]⟩
  rw [← List.length_eq_zero_iff, y.length_data, Shape.volume_eq_prod]
  exact List.prod_eq_zero hmem

end Repeats

end Tensor

namespace Tile

variable {x out : Tensor α} {rs : List Nat} {index : Index}

/-- Inside a repeated shape there is no size of zero to divide by. -/
theorem wrapped_eq_ok {shape : Shape}
    (h : List.Forall₂ (· < ·) index (List.zipWith (· * ·) shape rs))
    (hlength : rs.length = shape.length) :
    ((index.zip shape).mapM fun (i, size) => do
      .demand (size ≠ 0)
      return i % size : Outcome ε Index) = .ok (List.zipWith (· % ·) index shape) := by
  induction shape generalizing index rs with
  | nil =>
    rw [List.zipWith_nil_left] at h
    cases h
    rfl
  | cons n shape ih =>
    obtain ⟨r, rs, rfl⟩ := List.exists_cons_of_length_eq_add_one hlength
    obtain ⟨i, is, hi, his, rfl⟩ := List.forall₂_cons_right_iff.mp h
    have hpos : n ≠ 0 := (Nat.pos_of_mul_pos_right (Nat.zero_lt_of_lt hi)).ne'
    have hrest := mapM_eq_ok.mp (ih his (Nat.succ.inj hlength))
    exact mapM_eq_ok.mpr (.cons (bind_eq_ok.mpr ⟨(), demand_eq_ok.mpr hpos, rfl⟩) hrest)

theorem source_eq_ok (h : List.Forall₂ (· < ·) index (List.zipWith (· * ·) x.shape rs))
    (hlength : rs.length = x.shape.length) :
    (source x index : Outcome ε Index) = .ok (List.zipWith (· % ·) index x.shape) := by
  have hrank : index.length = x.shape.length := by
    rw [h.length_eq, List.length_zipWith, hlength, Nat.min_self]
  refine bind_eq_ok.mpr ⟨(), demand_eq_ok.mpr hrank.le,
    bind_eq_ok.mpr ⟨_, wrapped_eq_ok h hlength, ?_⟩⟩
  rw [Tensor.rank, hrank, Nat.sub_self, List.replicate_zero, List.append_nil]
  rfl

theorem exists_fill (hlength : rs.length = x.shape.length)
    (hshape : out.shape = List.zipWith (· * ·) x.shape rs) (hcounted : out.shape.Counted) :
    ∃ y, (fill x out : Outcome ε (Tensor α)) = .ok y ∧ Tensor.Repeats rs x y := by
  obtain ⟨y, hy⟩ := Tensor.exists_mapIndexedM (ε := ε) hcounted
    (f := fun index old => do return (x.get? (← source x index)).getD old) fun index old hindex =>
      ⟨_, bind_eq_ok.mpr ⟨_, source_eq_ok (hshape ▸ hindex) hlength, rfl⟩⟩
  have hkept : y.shape = out.shape := Tensor.keepsShape_mapIndexedM _ _ y hy
  refine ⟨y, hy, hlength, hkept.trans hshape, fun index hindex => ?_⟩
  rw [hkept] at hindex
  obtain ⟨old, b, hb, hread⟩ := Tensor.get?_mapIndexedM hy hindex
  rw [source_eq_ok (hshape ▸ hindex) hlength, ok_bind] at hread
  cases hread
  obtain ⟨a, ha⟩ := Option.isSome_iff_exists.mp
    (Tensor.isSome_get?_iff.mpr (Tensor.zipWith_mod_lt (hshape ▸ hindex) hlength))
  rw [hb, ha, Option.getD_some]

def factors (ns : List Int64) : List Nat := ns.map fun n => n.toInt.toNat

structure Accepts (shape : Shape) (bytes : Nat) (ns : List Int64) : Prop where
  length_eq : ns.length = shape.length
  nonneg : ∀ n ∈ ns, 0 ≤ n
  listed : ns.length * SymDim.bytes < byteLimit
  sizes : ∀ n ∈ List.zipWith (· * ·) shape (factors ns), n < intLimit
  counted : Shape.Counted (List.zipWith (· * ·) shape (factors ns))
  room : Shape.volume (List.zipWith (· * ·) shape (factors ns)) * bytes < byteLimit

variable {ns : List Int64} {shape : Shape} {v : Value}

theorem factors_lt (ns : List Int64) : ∀ r ∈ factors ns, r < intLimit := by
  have hlimit := intLimit_eq
  intro r hr
  obtain ⟨n, -, rfl⟩ := List.mem_map.mp hr
  have hword := n.toInt_lt
  omega

theorem map_size_eq (h : ∀ n ∈ ns, 0 ≤ n) : ns.map SymDim.size = (factors ns).map .ofSize := by
  rw [factors, List.map_map]
  refine List.map_congr_left fun n hn => congrArg SymDim.size (Int64.toInt_inj.mp ?_)
  have hnonneg := Int64.le_iff_toInt_le.mp (h n hn)
  rw [Int64.toInt_zero] at hnonneg
  rw [toInt_intOfSize (factors_lt ns _ (List.mem_map_of_mem hn)), Int.toNat_of_nonneg hnonneg]

theorem zipWith_ofSize {rs : List Nat} (h : ∀ n ∈ List.zipWith (· * ·) shape rs, n < intLimit) :
    List.zipWith (· * ·) (shape.map SymDim.ofSize) (rs.map .ofSize) =
      (List.zipWith (· * ·) shape rs).map .ofSize := by
  refine List.ext_getElem (by simp) fun i hi hi' => ?_
  have hentry := h _ (List.getElem_mem (by simpa using hi'))
  rw [List.getElem_zipWith] at hentry
  simp [SymDim.ofSize_mul hentry]

theorem toSizes_told (ns : List Int64) :
    ((Operator.tile.told 1 (.int (.ofList ns))).toSizes : Outcome RuleError SymShape) =
      checkRoom ns.length SymDim.bytes >>= fun _ => .ok (.ranked (ns.map .size)) := by
  have helements : (Operator.tile.told 1 (.int (.ofList ns))).elements = some (ns.map .int) :=
    Operator.elements_told rfl le_rfl
  rw [SymTensor.toSizes, helements]
  simp [Function.comp_def, SymElement.toDim]

/-- The rule reads the repetitions as sizes of a shape and multiplies with them. -/
theorem infer_told (v : Value) (ns : List Int64) :
    Operator.tile.infer
      ([some v, some (.int (.ofList ns))].zipIdx.map Operator.tile.describeInput) =
      (checkRoom ns.length SymDim.bytes >>= fun _ =>
        (SymShape.ofShape v.shape).tile (ns.map .size) >>= fun s => .ok [.ofShape v.dtype s]) := by
  have hdtype : ¬(Value.int (.ofList ns)).dtype ≠ .int := not_not.mpr rfl
  change infer [some (Operator.tile.told 0 v), some (Operator.tile.told 1 (.int (.ofList ns)))] = _
  simp only [infer, SymInputs.demand, Inputs.find?, List.getElem?_cons_zero,
    List.getElem?_cons_succ, Option.join_some, orRefuse_some, ok_bind, refuseIf_neg hdtype,
    toSizes_told, bind_assoc, Operator.dtype_told, Operator.shape_told, pure_eq]

theorem infer_eq_ok_iff {ws : List SymTensor} :
    Operator.tile.infer
      ([some v, some (.int (.ofList ns))].zipIdx.map Operator.tile.describeInput) = .ok ws ↔
      ns.length * SymDim.bytes < byteLimit ∧ (∀ n ∈ ns, 0 ≤ n) ∧ ns.length = v.shape.length ∧
        ws = [.ofShape v.dtype
        (.ranked (List.zipWith (· * ·) (v.shape.map .ofSize) (ns.map .size)))] := by
  have hnonneg : ¬(ns.map SymDim.size).any (fun r => r.value?.any (· < 0)) = true ↔
      ∀ n ∈ ns, 0 ≤ n := by
    simp [SymDim.value?]
  rw [infer_told]
  constructor
  · intro h
    obtain ⟨_, hroom, h⟩ := bind_eq_ok.mp h
    obtain ⟨s, hs, h⟩ := bind_eq_ok.mp h
    obtain ⟨_, hneg, hs⟩ := bind_eq_ok.mp hs
    obtain ⟨_, hlength, hs⟩ := bind_eq_ok.mp hs
    cases hs
    cases h
    refine ⟨demand_eq_ok.mp hroom, hnonneg.mp (refuseIf_eq_ok.mp hneg), ?_, rfl⟩
    simpa using not_not.mp (refuseIf_eq_ok.mp hlength)
  · rintro ⟨hroom, hneg, hlength, rfl⟩
    have hranks : ¬(ns.map SymDim.size).length ≠ (v.shape.map SymDim.ofSize).length := by
      simpa using hlength
    have htile : (SymShape.ofShape v.shape).tile (ns.map .size) =
        .ok (.ranked (List.zipWith (· * ·) (v.shape.map .ofSize) (ns.map .size))) := by
      rw [SymShape.ofShape, SymShape.tile, refuseIf_neg (hnonneg.mpr hneg), ok_bind,
        refuseIf_neg hranks]
      rfl
    exact bind_eq_ok.mpr ⟨(), demand_eq_ok.mpr hroom, bind_eq_ok.mpr ⟨_, htile, rfl⟩⟩

/-- The rule settles the products of sizes and repetitions where signed 64-bit integers hold
these. -/
theorem lt_of_settled (hshape : ∀ n ∈ shape, n < sizeLimit) (hnonneg : ∀ n ∈ ns, 0 ≤ n)
    (h : ∀ d ∈ List.zipWith (· * ·) (shape.map SymDim.ofSize) (ns.map .size), ∃ n,
      SymShape.sizeOf? d = some n) :
    ∀ n ∈ List.zipWith (· * ·) shape (factors ns), n < intLimit := by
  rw [map_size_eq hnonneg] at h
  intro n hn
  obtain ⟨i, hi, rfl⟩ := List.getElem_of_mem hn
  rw [List.getElem_zipWith]
  rw [List.length_zipWith, lt_min_iff] at hi
  obtain ⟨k, hk⟩ := h _ (List.mem_iff_getElem.mpr ⟨i, by simpa using hi, rfl⟩)
  rw [List.getElem_zipWith, List.getElem_map, List.getElem_map] at hk
  have hlt := factors_lt ns _ (List.getElem_mem hi.2)
  rcases Nat.eq_zero_or_pos (factors ns)[i] with hzero | hpos
  · simp [hzero, intLimit]
  · exact SymDim.lt_of_sizeOf?_mul (hshape _ (List.getElem_mem hi.1)) ⟨hpos, hlt⟩ hk

section Stored

variable [Value.Stored α] [Value.Stored.Covered α] {vs : List Value}

open Value.Stored

theorem checkedTypes_eq (hnonneg : ∀ n ∈ ns, 0 ≤ n) (hlisted : ns.length * SymDim.bytes < byteLimit)
    (hlength : ns.length = x.shape.length)
    (hsizes : ∀ n ∈ List.zipWith (· * ·) x.shape (factors ns), n < intLimit) :
    Operator.tile.checkedTypes [some (wrap x), some (.int (.ofList ns))] =
      .ok [⟨(wrap x).dtype, List.zipWith (· * ·) x.shape (factors ns)⟩] := by
  have hranked :
      SymShape.ranked (List.zipWith (· * ·) ((wrap x).shape.map .ofSize) (ns.map .size)) =
      .ofShape (List.zipWith (· * ·) x.shape (factors ns)) := by
    rw [Lawful.shape_wrap, map_size_eq hnonneg, zipWith_ofSize hsizes, SymShape.ofShape]
  refine Operator.checkedTypes_single .tile rfl rfl rfl
    (infer_eq_ok_iff.mpr ⟨hlisted, hnonneg, by rwa [Lawful.shape_wrap], rfl⟩) ?_
  rw [hranked]
  exact SymShape.toShape?_ofShape_iff.mpr hsizes

theorem exists_run {z : Tensor α} (hlength : rs.length = x.shape.length)
    (hz : z.shape = List.zipWith (· * ·) x.shape rs) (hcounted : z.shape.Counted)
    (axes : Option Value) :
    ∃ y, Tensor.Repeats rs x y ∧
      (Operator.tile.prepare .none [some (wrap x), axes] [wrap z] >>= fun k => k ()) =
      .ok (some [wrap y]) := by
  obtain ⟨y, hy, hrepeats⟩ := exists_fill (ε := OpError) hlength hz hcounted
  refine ⟨y, hrepeats, bind_eq_ok.mpr ⟨_, rfl, ?_⟩⟩
  rw [Covered.sameType_wrap, hy]
  rfl

theorem apply_eq_ok_iff (hx : (wrap x).Held) :
    Chain.reference.apply .tile [some (wrap x), some (.int (.ofList ns))] = .ok vs ↔
      Accepts x.shape (wrap x).dtype.bytes ns ∧ ∃ y, Tensor.Repeats (factors ns) x y ∧
      vs = [wrap y] := by
  constructor
  · intro h
    obtain ⟨w, shape, hw, hshape⟩ := Chain.settled_of_apply (by rfl) (by rfl) h
    obtain ⟨hlisted, hnonneg, hlength, heq⟩ := infer_eq_ok_iff.mp hw
    rw [Lawful.shape_wrap] at hlength heq
    cases heq
    have hsizes :=
      lt_of_settled (Lawful.shape_wrap x ▸ hx.sizes) hnonneg (SymShape.exists_sizeOf? hshape)
    obtain ⟨types, zeroed, htypes, hzeroed, hrun⟩ := Chain.apply_reference_eq_ok.mp h
    cases htypes.symm.trans (checkedTypes_eq hnonneg hlisted hlength hsizes)
    obtain ⟨v, _, hv, hnil, rfl⟩ := List.forall₂_cons_left_iff.mp (mapM_eq_ok.mp hzeroed)
    obtain rfl := List.forall₂_nil_left_iff.mp hnil
    obtain ⟨-, hcounted, hroom⟩ := Value.exists_zeros_iff.mp ⟨v, hv⟩
    obtain ⟨z, rfl, hz⟩ := exists_of_zeros hv
    obtain ⟨y, hy, hfilled⟩ := exists_run (by simpa [factors] using hlength) hz (hz ▸ hcounted) _
    rw [hfilled] at hrun
    cases hrun
    exact ⟨⟨hlength, hnonneg, hlisted, hsizes, hcounted, hroom⟩, y, hy, rfl⟩
  · rintro ⟨haccepts, y, hy, rfl⟩
    have hrank : (List.zipWith (· * ·) x.shape (factors ns)).length * Shape.entryBytes <
        byteLimit := by
      have hheld := hx.rank
      rw [Lawful.shape_wrap] at hheld
      simpa [factors, haccepts.length_eq] using hheld
    obtain ⟨v, hv⟩ : ∃ v, (Value.zeros ⟨(wrap x).dtype, List.zipWith (· * ·) x.shape (factors ns)⟩ :
        Outcome OpError Value) = .ok v :=
      Value.exists_zeros_iff.mpr ⟨hrank, haccepts.counted, haccepts.room⟩
    obtain ⟨z, rfl, hz⟩ := exists_of_zeros hv
    obtain ⟨y', hy', hfilled⟩ :=
      exists_run hy.length_eq hz (hz ▸ haccepts.counted) (some (.int (.ofList ns)))
    rw [hy.unique hy']
    exact Chain.apply_reference_single
      (checkedTypes_eq haccepts.nonneg haccepts.listed haccepts.length_eq haccepts.sizes) hv hfilled

theorem Accepts.held {y : Tensor α} (h : Accepts x.shape (wrap x).dtype.bytes ns)
    (hx : (wrap x).Held)
    (hy : Tensor.Repeats (factors ns) x y) : (wrap y).Held := by
  have hshape : (wrap y).shape = y.shape := Lawful.shape_wrap y
  have hlength : y.shape.length = x.shape.length := by simp [hy.shape_eq, hy.length_eq]
  have hrank := hx.rank
  rw [Lawful.shape_wrap, ← hlength] at hrank
  obtain ⟨-, -, -, hsizes, hcounted, hroom⟩ := h
  rw [← hy.shape_eq] at hsizes hcounted hroom
  refine ⟨⟨fun n hn => (hsizes n (hshape ▸ hn)).trans (by decide), hshape ▸ hrank⟩,
    hshape ▸ hcounted, ?_⟩
  rwa [Value.bytes, Value.count_eq_volume, hshape, Covered.dtype_wrap y x]

end Stored

end Tile

namespace Tensor

variable {x y z : Tensor α} {before after : Shape} {size r : Nat}

theorem writeBlocks_eq_ok {bs : List (List α)} (hshape : z.shape = y.shape)
    (hdata : y.data = bs.flatten) :
    (z.writeBlocks (bs.map .ok) : Outcome ε (Tensor α)) = .ok y := by
  have hlength : bs.flatten.length = z.data.length := by
    rw [← hdata, y.length_data, z.length_data, hshape]
  obtain ⟨u, hu⟩ := exists_writeBlocks (ε := ε) hlength.le
  obtain ⟨bs', hbs, hwritten⟩ := data_writeBlocks hu
  obtain rfl := List.map_injective_iff.mpr (fun _ _ => ok.inj) hbs
  rw [hu, ok.injEq, Tensor.ext_iff]
  refine ⟨(keepsShape_writeBlocks _ _ u hu).trans hshape, ?_⟩
  rw [hwritten, hlength, List.drop_length, List.append_nil, hdata]

/-- The places along a dimension, one copy after the other. -/
def copies (size r : Nat) : List Nat := (List.replicate r (List.range size)).flatten

theorem copies_lt : ∀ k ∈ copies size r, k < size := by
  intro k hk
  obtain ⟨ks, hks, hk⟩ := List.mem_flatten.mp hk
  obtain rfl := (List.mem_replicate.mp hks).2
  exact List.mem_range.mp hk

theorem length_copies (size r : Nat) : (copies size r).length = size * r := by
  simp [copies, Nat.mul_comm]

theorem getElem?_copies {j : Nat} (hj : j < size * r) : (copies size r)[j]? = some (j % size) := by
  have hpos : 0 < size := Nat.pos_of_mul_pos_right (Nat.zero_lt_of_lt hj)
  have hcopy : (List.replicate r (List.range size))[j / size]? = some (List.range size) := by
    rw [List.getElem?_replicate, if_pos (Nat.div_lt_of_lt_mul hj)]
  have hread :=
    getElem?_flatten_of_length
      (fun ks hks => by rw [(List.mem_replicate.mp hks).2, List.length_range])
    (Nat.mod_lt j hpos) hcopy
  rwa [Nat.mul_comm, Nat.div_add_mod, List.getElem?_range (Nat.mod_lt j hpos)] at hread

/-- The run of elements of a tensor along a dimension, taken as a whole. -/
theorem flatten_runs_range (x : Tensor α) (size inner i : Nat) :
    ((List.range size).map fun k => (x.data.drop ((i * size + k) * inner)).take inner).flatten =
      (x.data.drop (i * (size * inner))).take (size * inner) := by
  have hruns := flatMap_range_runs (x.data.drop (i * (size * inner))) size inner
  rw [← hruns, List.flatMap_def]
  refine congrArg List.flatten (List.map_congr_left fun k _ => ?_)
  rw [List.drop_drop, Nat.add_mul, Nat.mul_assoc]

theorem flatten_runs_copies (x : Tensor α) (outer size inner r : Nat) :
    (x.runs outer size inner (copies size r)).flatten = ((List.range outer).flatMap fun i =>
      List.replicate r ((x.data.drop (i * (size * inner))).take (size * inner))).flatten := by
  rw [runs, List.flatMap_def, List.flatMap_def, List.flatten_flatten, List.flatten_flatten,
    List.map_map, List.map_map]
  refine congrArg List.flatten (List.map_congr_left fun i _ => ?_)
  rw [Function.comp_apply, Function.comp_apply, copies, List.map_flatten, List.flatten_flatten,
    List.map_map, List.map_replicate, Function.comp_apply, flatten_runs_range]

def along (rank dim r : Nat) : List Nat := (List.replicate rank 1).set dim r

theorem along_append (before after : Shape) (size r : Nat) :
    along (before ++ size :: after).length before.length r =
      List.replicate before.length 1 ++ r :: List.replicate after.length 1 := by
  have hrank : (before ++ size :: after).length = before.length + (after.length + 1) := by simp
  rw [along, hrank, ← List.replicate_append_replicate, List.set_append_right _ _ (by simp)]
  simp [List.replicate_succ]

theorem zipWith_along (before after : Shape) (size r : Nat) :
    List.zipWith (· * ·) (before ++ size :: after)
      (along (before ++ size :: after).length before.length r) =
      before ++ size * r :: after := by
  rw [along_append, List.zipWith_append (by simp), List.zipWith_cons_cons, zipWith_mul_one,
    zipWith_mul_one]

/-- A position has coordinates before a dimension, one along it and others behind it. -/
theorem exists_around {index : Index} (h : List.Forall₂ (· < ·) index (before ++ size :: after)) :
    ∃ p j s, index = p ++ j :: s ∧ List.Forall₂ (· < ·) p before ∧ j < size ∧
      List.Forall₂ (· < ·) s after := by
  obtain ⟨j, s, hj, hs, hrest⟩ := List.forall₂_cons_right_iff.mp (List.forall₂_drop_append _ _ _ h)
  refine ⟨index.take before.length, j, s, ?_, List.forall₂_take_append _ _ _ h, hj, hs⟩
  rw [← hrest, List.take_append_drop]

theorem zipWith_mod_around {p s : Index} {j : Nat} (hp : List.Forall₂ (· < ·) p before)
    (hs : List.Forall₂ (· < ·) s after) :
    List.zipWith (· % ·) (p ++ j :: s) (before ++ size :: after) = p ++ j % size :: s := by
  rw [List.zipWith_append hp.length_eq, List.zipWith_cons_cons, zipWith_mod_of_lt hp,
    zipWith_mod_of_lt hs]

theorem exists_repeated (hshape : x.shape = before ++ size :: after) (r : Nat) :
    ∃ y : Tensor α, Repeats (along x.shape.length before.length r) x y ∧
      y.data = (x.runs before.volume size after.volume (copies size r)).flatten := by
  have hlength : (x.runs before.volume size after.volume (copies size r)).flatten.length =
      Shape.volume (before ++ size * r :: after) := by
    rw [length_flatten_runs hshape copies_lt, length_copies, Shape.volume_append, Shape.volume,
      Nat.mul_assoc]
  have hone : Shape.volume [size * r] = (copies size r).length := by
    rw [length_copies, Shape.volume, Shape.volume, Nat.mul_one]
  obtain ⟨y, hy, hdata⟩ : ∃ y : Tensor α, y.shape = before ++ size * r :: after ∧
      y.data = (x.runs before.volume size after.volume (copies size r)).flatten :=
        ⟨⟨_, _, hlength⟩, rfl, rfl⟩
  have hmid : y.shape = before ++ [size * r] ++ after := by
    rw [hy, List.append_assoc, List.singleton_append]
  refine ⟨y, ⟨by simp [along], by rw [hy, hshape, zipWith_along], fun index hindex => ?_⟩, hdata⟩
  rw [hy] at hindex
  obtain ⟨p, j, s, rfl, hp, hj, hs⟩ := exists_around hindex
  have hoffset : (copies size r)[Layout.offset (Layout.strides [size * r]) [j]]? =
      some (j % size) := by
    simpa [Layout.strides, Layout.offset, Shape.volume] using getElem?_copies hj
  have hread := get?_of_runs hshape copies_lt hone hmid hdata hp (.cons hj .nil) hs hoffset
  rw [List.append_assoc, List.singleton_append] at hread
  rw [hread, hshape, zipWith_mod_around hp hs]

end Tensor

theorem List.exists_around {xs : List α} {dim : Nat} (h : dim < xs.length) :
    ∃ before x after, xs = before ++ x :: after ∧ before.length = dim := by
  refine ⟨xs.take dim, xs[dim], xs.drop (dim + 1), ?_, by simp [h.le]⟩
  rw [List.cons_getElem_drop_succ, List.take_append_drop]

namespace Concat

variable {x y z : Tensor α} {before after : Shape} {size : Nat}

/-- What a copy contributes to a run of the join is its whole run. -/
theorem block_eq (hshape : x.shape = before ++ size :: after) (hcounted : x.shape.Counted) {i : Nat}
    (hi : i < before.volume) :
    (x.size before.length >>= fun n => checkSize (n * after.volume) >>= fun length =>
      x.block (i * length) length :
      Outcome ε (List α)) =
      .ok ((x.data.drop (i * (size * after.volume))).take (size * after.volume)) := by
  have hvolume : x.data.length = before.volume * (size * after.volume) := by
    rw [x.length_data, hshape, Shape.volume_append, Shape.volume]
  have hend : i * (size * after.volume) + size * after.volume ≤ x.data.length := by
    rw [← Nat.succ_mul, hvolume]
    exact Nat.mul_le_mul_right _ hi
  have hlimit : size * after.volume < sizeLimit := by
    have hprod := hcounted.prod_lt
    rw [← Shape.volume_eq_prod, ← x.length_data] at hprod
    omega
  rw [Tensor.size_eq_ok_of_shape hshape, ok_bind, checkSize, if_pos hlimit, ok_bind]
  exact Tensor.block_eq_ok.mpr ⟨hend, rfl⟩

/-- The kernel writes the copies of each run one behind the other, if the sizes behind the axis can
be counted. -/
theorem fill_copies (hshape : x.shape = before ++ size :: after) (hcounted : x.shape.Counted)
    {r : Nat} (hy : Tensor.Repeats (Tensor.along x.shape.length before.length r) x y)
    (hdata : y.data = (x.runs before.volume size after.volume (Tensor.copies size r)).flatten)
    (hz : z.shape = y.shape) (hroom : z.shape.Counted) :
    (fill (List.replicate r x) before.length z : Outcome ε (Tensor α)) = if after.Counted then .ok y
      else .fault := by
  have hwide : z.shape = before ++ size * r :: after := by
    rw [hz, hy.shape_eq, hshape, Tensor.zipWith_along]
  have hrank : before.length < z.rank := by simp [Tensor.rank, hwide]
  have hblocks : ((List.range before.volume).flatMap fun i => (List.replicate r x).map fun input =>
      input.size before.length >>= fun n => checkSize (n * after.volume) >>= fun length =>
        (input.block (i * length) length : Outcome ε (List α))) =
      ((List.range before.volume).flatMap fun i => List.replicate r
        ((x.data.drop (i * (size * after.volume))).take (size * after.volume))).map .ok := by
    rw [List.map_flatMap]
    refine List.flatMap_congr fun i hi => ?_
    rw [List.map_replicate, List.map_replicate, block_eq hshape hcounted (List.mem_range.mp hi)]
  rw [fill, demand, if_pos hrank, ok_bind, Tensor.outerInner_eq hwide hroom]
  split_ifs with hafter
  · rw [Tensor.flatten_runs_copies] at hdata
    exact (congrArg z.writeBlocks hblocks).trans (Tensor.writeBlocks_eq_ok hz hdata)
  · rfl

section Stored

variable [Value.Stored α] [Value.Stored.Covered α] {op : Concat} {vs : List Value} {dim r : Nat}

open Value.Stored

/-- The rule adds up the sizes of the copies along the axis. -/
theorem outputShape_copies {shape : Shape} (hdim : Axis.resolve shape.length op.axis = .ok dim)
    (hr : r ≠ 0) (hsize : shape.getD dim 0 * r < intLimit) :
    op.outputShape ((List.replicate r shape).map .ofShape) =
      .ok (.ofShape (shape.set dim (shape.getD dim 0 * r))) := by
  have hlt := Axis.resolve_lt hdim
  have hsame : ∀ b ∈ List.replicate r shape, ∃ n, b = shape.set dim n := by
    intro b hb
    obtain rfl := (List.mem_replicate.mp hb).2
    exact ⟨b.getD dim 0, by simp [List.getD_eq_getElem?_getD, hlt]⟩
  have htotal : ((List.replicate r shape).map (·.getD dim 0)).sum = shape.getD dim 0 * r := by
    rw [List.map_replicate, List.sum_replicate_nat, Nat.mul_comm]
  rw [outputShape_of_pieces op (by simpa using hr) hdim hsame, SymDim.total_ofSize (htotal ▸ hsize),
    htotal, SymShape.ofShape, List.map_set]

theorem infer_copies (hdim : Axis.resolve x.shape.length op.axis = .ok dim) (hr : r ≠ 0)
    (hsize : x.shape.getD dim 0 * r < intLimit) :
    ∃ w, (Operator.concat op).infer
        ((List.replicate r (some (wrap x))).zipIdx.map (Operator.concat op).describeInput) =
        .ok [w] ∧
      w.dtype = (wrap x).dtype ∧ w.shape = .ofShape (x.shape.set dim (x.shape.getD dim 0 * r)) := by
  obtain ⟨k, rfl⟩ := Nat.exists_eq_succ_of_ne_zero hr
  have hshapes : (wrap x :: List.replicate k (wrap x)).map Value.shape =
      List.replicate (k + 1) x.shape := by
    simp [List.replicate_succ, Lawful.shape_wrap]
  have hsame : ∀ v ∈ List.replicate k (wrap x), v.dtype = (wrap x).dtype := fun v hv => by
    rw [(List.mem_replicate.mp hv).2]
  have hinfer := infer_eq_ok hsame (by rw [hshapes]; exact outputShape_copies hdim hr hsize)
  rwa [← List.replicate_succ, List.map_replicate] at hinfer

theorem run_copies (hshape : x.shape = before ++ size :: after) (hcounted : x.shape.Counted)
    (hdim : Axis.resolve x.shape.length op.axis = .ok before.length) (hr : r ≠ 0)
    (hy : Tensor.Repeats (Tensor.along x.shape.length before.length r) x y)
    (hdata : y.data = (x.runs before.volume size after.volume (Tensor.copies size r)).flatten)
    (hz : z.shape = y.shape) (hroom : z.shape.Counted) :
    ((Operator.concat op).prepare .none (List.replicate r (some (wrap x))) [wrap z] >>= fun k =>
      k ()) =
      (if Shape.Counted after then .ok y else .fault) >>= Kernel.filled := by
  obtain ⟨k, rfl⟩ := Nat.exists_eq_succ_of_ne_zero hr
  have hinputs : List.replicate (k + 1) (some (wrap x)) =
      ((x :: List.replicate k x).map wrap).map some := by
    simp [List.replicate_succ]
  rw [hinputs, Operator.prepare, prepare_run hdim, ← List.replicate_succ,
    fill_copies hshape hcounted hy hdata hz hroom]

/-- Copies are joined to a tensor that memory holds just if the sizes behind the axis can be
counted. -/
theorem apply_copies_iff (hx : (wrap x).Held) (hdim : Axis.resolve x.shape.length op.axis = .ok dim)
    (hr : r ≠ 0) (hy : Tensor.Repeats (Tensor.along x.shape.length dim r) x y)
    (hsizes : ∀ n ∈ y.shape, n < intLimit) (hheld : (wrap y).Held) :
    Chain.reference.apply (.concat op) (List.replicate r (some (wrap x))) = .ok vs ↔
      Shape.Counted (x.shape.drop (dim + 1)) ∧ vs = [wrap y] := by
  have hcounted : x.shape.Counted := Lawful.shape_wrap x ▸ hx.counted
  have hroom : y.shape.Counted := Lawful.shape_wrap y ▸ hheld.counted
  obtain ⟨before, size, after, hshape, rfl⟩ := List.exists_around (Axis.resolve_lt hdim)
  obtain ⟨y', hy', hdata⟩ := Tensor.exists_repeated hshape r
  obtain rfl := hy.unique hy'
  have hwide : y.shape = before ++ size * r :: after := by
    rw [hy.shape_eq, hshape, Tensor.zipWith_along]
  have hset : y.shape = x.shape.set before.length (x.shape.getD before.length 0 * r) := by
    simp [hwide, hshape]
  have hsize : x.shape.getD before.length 0 * r < intLimit := hsizes _ (by simp [hwide, hshape])
  obtain ⟨w, hw, hwtype, hwshape⟩ := infer_copies hdim hr hsize
  rw [← hset] at hwshape
  have harity : (Operator.concat op).demandArity (List.replicate r (some (wrap x))).length =
      .ok () := by
    have hsome : ¬r < 1 := by omega
    simp [Operator.demandArity, Operator.arity, refuseIf, hsome]
  rw [Chain.apply_eq_ok_iff (.concat op) harity rfl rfl hw hwtype hwshape (fun n hn =>
    (hsizes n hn).trans (by decide)) fun z hz =>
    run_copies hshape hcounted hdim hr hy hdata hz (hz ▸ hroom), hshape, Shape.drop_append_cons]
  have htype : (wrap y).type = ⟨(wrap x).dtype, y.shape⟩ := by
    rw [Value.type, Lawful.shape_wrap, Covered.dtype_wrap y x]
  have hzeros := hheld.exists_zeros (ε := OpError)
  rw [htype] at hzeros
  by_cases hafter : Shape.Counted after
  · simp only [hafter, if_true, ok.injEq, exists_eq_left', true_and, and_iff_right hsizes,
      and_iff_right hzeros]
  · simp [hafter]

end Stored

end Concat

section Rounds

variable [Value.Stored α] [Value.Stored.Covered α] {x y : Tensor α} {rs done order : List Nat}

open Value.Stored

def taken (rs done : List Nat) : List Nat := rs.zipIdx.map fun s => if s.2 ∈ done then s.1 else 1

theorem length_taken (rs done : List Nat) : (taken rs done).length = rs.length := by simp [taken]

theorem taken_nil (rs : List Nat) : taken rs [] = List.replicate rs.length 1 := by
  simp [taken]

theorem taken_all (h : ∀ k < rs.length, k ∈ done) : taken rs done = rs := by
  refine List.ext_getElem (length_taken rs done) fun i hi _ => ?_
  rw [length_taken] at hi
  simp [taken, h i hi]

theorem taken_append {dim : Nat} (hdim : dim < rs.length) (hfresh : dim ∉ done) :
    List.zipWith (· * ·) (taken rs done) (Tensor.along rs.length dim rs[dim]) =
      taken rs (done ++ [dim]) := by
  refine List.ext_getElem (by simp [taken, Tensor.along]) fun i hi _ => ?_
  by_cases hi : i = dim
  · simp [taken, Tensor.along, hi, hfresh]
  · simp [taken, Tensor.along, hi, Ne.symm hi]

/-- What is taken along some dimensions is no longer than what is taken along all, if it is taken
at least once. -/
theorem taken_le (hpos : ∀ r ∈ rs, r ≠ 0) (done : List Nat) {shape : Shape}
    (hlength : rs.length = shape.length) :
    List.Forall₂ (· ≤ ·) (List.zipWith (· * ·) shape (taken rs done))
      (List.zipWith (· * ·) shape rs) := by
  refine List.forall₂_iff_get.mpr ⟨by simp [length_taken], fun i hi hi' => ?_⟩
  rw [List.length_zipWith, lt_min_iff] at hi'
  have hone : 1 ≤ rs[i] := Nat.one_le_iff_ne_zero.mpr (hpos _ (List.getElem_mem hi'.2))
  simp only [List.get_eq_getElem, List.getElem_zipWith]
  refine Nat.mul_le_mul_left _ ?_
  simp only [taken, List.getElem_map, List.getElem_zipIdx, Nat.zero_add]
  split_ifs
  · exact le_rfl
  · exact hone

/-- Memory that holds a tensor holds what it is made of step by step. -/
theorem held_of_taken {v : Tensor α} (hpos : ∀ r ∈ rs, r ≠ 0) (hy : Tensor.Repeats rs x y)
    (hsizes : ∀ n ∈ y.shape, n < intLimit) (hheld : (wrap y).Held)
    (hv : Tensor.Repeats (taken rs done) x v) : (∀ n ∈ v.shape, n < intLimit) ∧ (wrap v).Held := by
  have hle : List.Forall₂ (· ≤ ·) v.shape y.shape := by
    rw [hv.shape_eq, hy.shape_eq]
    exact taken_le hpos done hy.length_eq
  have hsmall : ∀ n ∈ v.shape, n < intLimit := by
    intro n hn
    obtain ⟨m, hm, hnm⟩ := Related.of_mem_right hle.flip hn
    exact hnm.trans_lt (hsizes m hm)
  obtain ⟨hcounted, hroom⟩ := hheld.fits_of_le ((Lawful.shape_wrap y).symm ▸ hle)
  have hshape : (wrap v).shape = v.shape := Lawful.shape_wrap v
  refine ⟨hsmall,
    ⟨⟨fun n hn => (hsmall n (hshape ▸ hn)).trans (by decide), ?_⟩, hshape ▸ hcounted, ?_⟩⟩
  · have hrank := hheld.rank
    rw [Lawful.shape_wrap] at hrank
    rwa [hshape, hle.length_eq]
  · rwa [Value.bytes, Value.count_eq_volume, hshape, Covered.dtype_wrap v y]

/-- Copies of a value that are joined along a dimension. -/
def joinCopies (rs : List Nat) (v : Value) (dim : Nat) : Outcome OpError Value :=
  Chain.reference.apply (.concat ⟨intOfSize dim⟩) (List.replicate (rs.getD dim 0) (some v)) >>=
    Kernel.single

/-- Whether the sizes behind each dimension can be counted when its turn comes. -/
def Countable (shape : Shape) (rs : List Nat) : List Nat → List Nat → Prop
  | _, [] => True
  | done, dim :: order =>
    Shape.Counted ((List.zipWith (· * ·) shape (taken rs done)).drop (dim + 1)) ∧
      Countable shape rs (done ++ [dim]) order

theorem joinCopies_eq_ok_iff {dim : Nat} (hx : (wrap x).Held) (hdim : dim < x.shape.length)
    (hr : rs.getD dim 0 ≠ 0)
    (hy : Tensor.Repeats (Tensor.along x.shape.length dim (rs.getD dim 0)) x y)
    (hsizes : ∀ n ∈ y.shape, n < intLimit) (hheld : (wrap y).Held) {v : Value} :
    joinCopies rs (wrap x) dim = .ok v ↔ Shape.Counted (x.shape.drop (dim + 1)) ∧ v = wrap y := by
  have hrank : x.shape.length < intLimit := by
    have hroom := hx.rank
    rw [Lawful.shape_wrap] at hroom
    exact (Value.lt_of_listed hroom).trans (by decide)
  have haxis : Axis.resolve x.shape.length (Concat.mk (intOfSize dim)).axis = .ok dim :=
    Axis.Denotes.resolve ⟨hdim, .inl (toInt_intOfSize (hdim.trans hrank))⟩ hrank
  constructor
  · intro h
    obtain ⟨vs, hvs, h⟩ := bind_eq_ok.mp h
    obtain ⟨hcounted, rfl⟩ := (Concat.apply_copies_iff hx haxis hr hy hsizes hheld).mp hvs
    exact ⟨hcounted, (ok.inj h).symm⟩
  · rintro ⟨hcounted, rfl⟩
    exact bind_eq_ok.mpr
      ⟨_, (Concat.apply_copies_iff hx haxis hr hy hsizes hheld).mpr ⟨hcounted, rfl⟩, rfl⟩

/-- Taking one dimension after the other leads to the repeated tensor, as long as the sizes behind
can be counted. -/
theorem foldlM_joinCopies_iff (hpos : ∀ r ∈ rs, r ≠ 0) (hy : Tensor.Repeats rs x y)
    (hsizes : ∀ n ∈ y.shape, n < intLimit) (hheld : (wrap y).Held)
    (horder : ∀ dim ∈ order, dim < rs.length) (hnodup : (done ++ order).Nodup) {v : Tensor α}
    (hv : Tensor.Repeats (taken rs done) x v) {w : Value} :
    order.foldlM (joinCopies rs) (wrap v) = .ok w ↔
      Countable x.shape rs done order ∧
      ∃ u : Tensor α, Tensor.Repeats (taken rs (done ++ order)) x u ∧ w = wrap u := by
  induction order generalizing done v with
  | nil =>
    rw [List.append_nil, List.foldlM_nil, pure_eq, ok.injEq]
    constructor
    · rintro rfl
      exact ⟨trivial, v, hv, rfl⟩
    · rintro ⟨-, u, hu, rfl⟩
      rw [hv.unique hu]
  | cons dim order ih =>
    rw [List.forall_mem_cons] at horder
    rw [List.append_cons done dim order] at hnodup
    have hfresh : dim ∉ done := by
      intro hmem
      have hfront := hnodup.of_append_left
      rw [List.nodup_append] at hfront
      exact hfront.2.2 dim hmem dim (List.mem_singleton_self dim) rfl
    have hrank : v.shape.length = rs.length := by
      rw [hv.shape_eq, List.length_zipWith, hv.length_eq, Nat.min_self, ← hv.length_eq,
        length_taken]
    have hget : rs.getD dim 0 = rs[dim] := by simp [List.getD_eq_getElem?_getD, horder.1]
    obtain ⟨before, size, after, hshape, hbefore⟩ := List.exists_around (hrank ▸ horder.1)
    obtain ⟨u, hu, -⟩ := Tensor.exists_repeated hshape (rs.getD dim 0)
    rw [hbefore] at hu
    have hnext : Tensor.Repeats (taken rs (done ++ [dim])) x u := by
      have hall := hv.trans hu
      rwa [hrank, hget, taken_append horder.1 hfresh] at hall
    obtain ⟨-, hvheld⟩ := held_of_taken hpos hy hsizes hheld hv
    obtain ⟨husizes, huheld⟩ := held_of_taken hpos hy hsizes hheld hnext
    have hr : rs.getD dim 0 ≠ 0 := hget ▸ hpos _ (List.getElem_mem horder.1)
    have hstep :=
      @joinCopies_eq_ok_iff _ _ _ v u rs dim hvheld (hrank ▸ horder.1) hr hu husizes huheld
    rw [List.foldlM_cons, bind_eq_ok, Countable, ← hv.shape_eq, List.append_cons done dim order]
    constructor
    · rintro ⟨_, hjoin, hrest⟩
      obtain ⟨hcounted, rfl⟩ := hstep.mp hjoin
      obtain ⟨hcountable, hlast⟩ := (ih horder.2 hnodup hnext).mp hrest
      exact ⟨⟨hcounted, hcountable⟩, hlast⟩
    · rintro ⟨⟨hcounted, hcountable⟩, hlast⟩
      exact ⟨_, hstep.mpr ⟨hcounted, rfl⟩, (ih horder.2 hnodup hnext).mpr ⟨hcountable, hlast⟩⟩

theorem countable_of_extent {shape : Shape} (hpos : ∀ r ∈ rs, r ≠ 0)
    (hlength : rs.length = shape.length)
    (h : Shape.extent (List.zipWith (· * ·) shape rs) < sizeLimit) :
    Countable shape rs done order := by
  induction order generalizing done with
  | nil => trivial
  | cons dim order ih =>
    have hbehind : Shape.Counted ((List.zipWith (· * ·) shape rs).drop (dim + 1)) :=
      Shape.counted_of_extent ((Shape.extent_le_of_sublist (List.drop_sublist _ _)).trans_lt h)
    exact ⟨hbehind.mono (List.forall₂_drop _ (taken_le hpos done hlength)), ih⟩

/-- A tensor is repeated along all dimensions just if the repetitions and the sizes that they make
are accepted, and is then empty if it is not to be taken at all along one. Joining its copies along
the dimensions, in whatever order these are taken, makes the same tensor just if the sizes behind
each dimension can be counted when its turn comes, which they always can unless they overflow
before a size of zero is met. -/
theorem Tile.joins_copies (hx : (wrap x).Held) (ns : List Int64) :
    (∀ vs, Chain.reference.apply .tile [some (wrap x), some (.int (.ofList ns))] = .ok vs ↔
      Tile.Accepts x.shape (wrap x).dtype.bytes ns ∧
        ∃ y : Tensor α, Tensor.Repeats (Tile.factors ns) x y ∧ vs = [wrap y]) ∧
    ∀ y : Tensor α, Chain.reference.apply .tile [some (wrap x), some (.int (.ofList ns))] =
      .ok [wrap y] →
      y.shape = List.zipWith (· * ·) x.shape (Tile.factors ns) ∧ (0 ∈ ns → y.data = []) ∧
      ((∀ n ∈ ns, 1 ≤ n) → ∀ order : List Nat, order.Perm (List.range x.shape.length) →
        (∀ w, order.foldlM (joinCopies (Tile.factors ns)) (wrap x) = .ok w ↔
          Countable x.shape (Tile.factors ns) [] order ∧ w = wrap y) ∧
        (y.shape.extent < sizeLimit → order.foldlM (joinCopies (Tile.factors ns)) (wrap x) =
        .ok (wrap y))) := by
  refine ⟨fun vs => apply_eq_ok_iff hx, fun y happly => ?_⟩
  obtain ⟨haccepts, y', hy, heq⟩ := (apply_eq_ok_iff hx).mp happly
  obtain rfl := wrap_injective (List.singleton_inj.mp heq)
  refine ⟨hy.shape_eq, fun hzero => hy.data_eq_nil (List.mem_map.mpr ⟨0, hzero, rfl⟩),
    fun hones order horder => ?_⟩
  have hpos : ∀ r ∈ factors ns, r ≠ 0 := by
    intro r hr
    obtain ⟨n, hn, rfl⟩ := List.mem_map.mp hr
    have hone := Int64.le_iff_toInt_le.mp (hones n hn)
    have hvalue : (1 : Int64).toInt = 1 := rfl
    omega
  have hrank := hy.length_eq
  have hsizes : ∀ n ∈ y.shape, n < intLimit := hy.shape_eq ▸ haccepts.sizes
  have hheld := haccepts.held hx hy
  have hstart : Tensor.Repeats (taken (factors ns) []) x x := by
    rw [taken_nil, hrank]
    exact .refl x
  have hinside : ∀ dim ∈ order, dim < (factors ns).length := fun dim hdim => by
    rw [hrank]
    exact List.mem_range.mp (horder.mem_iff.mp hdim)
  have hall : taken (factors ns) order = factors ns := taken_all fun k hk =>
    horder.mem_iff.mpr (List.mem_range.mpr (hrank ▸ hk))
  have hnodup : ([] ++ order).Nodup := horder.nodup_iff.mpr List.nodup_range
  have hrounds : ∀ w, order.foldlM (joinCopies (factors ns)) (wrap x) = .ok w ↔
      Countable x.shape (factors ns) [] order ∧ w = wrap y := by
    intro w
    rw [foldlM_joinCopies_iff hpos hy hsizes hheld hinside hnodup hstart, List.nil_append, hall]
    refine and_congr_right fun _ => ⟨?_, fun hw => ⟨y, hy, hw⟩⟩
    rintro ⟨u, hu, rfl⟩
    rw [hu.unique hy]
  exact ⟨hrounds, fun hextent =>
    (hrounds _).mpr ⟨countable_of_extent hpos hrank (hy.shape_eq ▸ hextent), rfl⟩⟩

/-- Twice along the first and three times along the second dimension, which is taken first. -/
theorem Tile.joins_copies_columns :
    [1, 0].foldlM (joinCopies [2, 3]) (.int ⟨[2, 1], [5, 6], rfl⟩) =
      .ok (.int ⟨[4, 3], [5, 5, 5, 6, 6, 6, 5, 5, 5, 6, 6, 6], rfl⟩) := by
  have hx : (wrap (⟨[2, 1], [5, 6], rfl⟩ : Tensor Int64)).Held := by decide
  have happly : Chain.reference.apply .tile
      [some (.int ⟨[2, 1], [5, 6], rfl⟩), some (.int (.ofList [2, 3]))] =
        .ok [.int ⟨[4, 3], [5, 5, 5, 6, 6, 6, 5, 5, 5, 6, 6, 6], rfl⟩] := by decide +kernel
  obtain ⟨-, htiled⟩ := joins_copies hx [2, 3]
  obtain ⟨-, -, hjoined⟩ := htiled ⟨[4, 3], [5, 5, 5, 6, 6, 6, 5, 5, 5, 6, 6, 6], rfl⟩ happly
  have hones : ∀ n ∈ [(2 : Int64), 3], 1 ≤ n := by simp
  have horder : [1, 0].Perm (List.range 2) := List.Perm.swap 0 1 []
  have hextent : Shape.extent [4, 3] < sizeLimit := by decide
  exact (hjoined hones [1, 0] horder).2 hextent

/-- A repeated tensor is empty, but the sizes behind the first dimension overflow when its copies
are joined; they overflow as well before a dimension that is not to be taken at all. -/
theorem Tile.joins_copies_fault_empty :
    (Value.int ⟨[0, 2 ^ 32, 2 ^ 32], [], rfl⟩).Held ∧
    Chain.reference.apply .tile
        [some (.int ⟨[0, 2 ^ 32, 2 ^ 32], [], rfl⟩), some (.int (.ofList [2, 1, 1]))] =
      .ok [.int ⟨[0, 2 ^ 32, 2 ^ 32], [], rfl⟩] ∧
    [0, 1, 2].foldlM (joinCopies [2, 1, 1]) (.int ⟨[0, 2 ^ 32, 2 ^ 32], [], rfl⟩) = .fault ∧
    Chain.reference.apply .tile
        [some (.int ⟨[1, 1, 1], [7], rfl⟩), some (.int (.ofList [2 ^ 40, 2 ^ 40, 0]))] =
        .fault := by
  refine ⟨by decide, by decide +kernel, by decide +kernel, by decide +kernel⟩

end Rounds

end TensorGraph
