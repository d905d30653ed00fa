import TensorGraph.Proofs.DimensionOrders
import TensorGraph.Proofs.SlicedPositions
import TensorGraph.Proofs.Tracking.Inference

/-! Ranges of the sizes of a tensor. Measuring the dimensions between two bounds holds the bounds
inside the rank at once, a slice of the vector of all sizes holds them inside with 64-bit words;
both take the same sizes, whether these are known, named or unknown. -/

namespace TensorGraph

open Outcome

variable {ε α β : Type} {start stop : Int64} {rank : Nat}

namespace ShapeOf

def part (start stop : Int64) (xs : List α) : List α :=
  (xs.take (bound xs.length stop)).drop (bound xs.length start)

def startOf (op : ShapeOf) : Int64 := op.start.getD 0

def stopOf (op : ShapeOf) : Int64 := op.stop.getD Int64.maxValue

theorem bound_le (rank : Nat) (n : Int64) : bound rank n ≤ rank := Nat.min_le_right _ _

theorem bound_zero (rank : Nat) : bound rank 0 = 0 := by
  simp [bound]

theorem bound_maxValue (h : rank < intLimit) : bound rank Int64.maxValue = rank := by
  have hlimit := intLimit_eq
  have hmax : Int64.maxValue.toInt.toNat = 9223372036854775807 := rfl
  have hneg : ¬Int64.maxValue < 0 := by decide
  rw [bound, if_neg hneg, hmax]
  omega

/-- A bound is held inside the rank as a forward slice holds it inside a dimension. -/
theorem bound_eq (rank : Nat) (n : Int64) :
    (bound rank n : Int) = SliceRange.bound rank 1 n.toInt := by
  simp only [bound, SliceRange.bound, SliceRange.counted, Int64.lt_iff_toInt_lt, Int64.toInt_zero]
  split_ifs <;> omega

theorem part_eq_map (start stop : Int64) (xs : List α) (a : α) : part start stop xs =
    (List.range' (bound xs.length start) (bound xs.length stop - bound xs.length start)).map
      (xs.getD · a) := by
  have hstop := bound_le xs.length stop
  refine List.ext_getElem (by simp [part, hstop]) fun i hi _ => ?_
  have hlt : bound xs.length start + i < xs.length := by
    simp [part] at hi
    omega
  simp [part, hlt]

theorem part_map (f : α → β) (xs : List α) :
    part start stop (xs.map f) = (part start stop xs).map f := by
  simp [part]

theorem part_all (xs : List α) (h : xs.length < intLimit) : part 0 Int64.maxValue xs = xs := by
  simp [part, bound_zero, bound_maxValue h]

theorem length_part (xs : List α) :
    (part start stop xs).length = bound xs.length stop - bound xs.length start := by
  simp [part, bound_le]

theorem length_part_le (start stop : Int64) (xs : List α) :
    (part start stop xs).length ≤ xs.length := by
  simp [part]

/-- Without a first bound measuring starts at the first dimension, and without a last one it goes
on to the end. -/
theorem take_drop_range (op : ShapeOf) (xs : List α) (h : xs.length < intLimit) :
    (xs.take (op.range xs.length).2).drop (op.range xs.length).1 =
      part op.startOf op.stopOf xs := by
  obtain ⟨start, stop⟩ := op
  have hstart : start.elim 0 (bound xs.length) = bound xs.length (start.getD 0) := by
    cases start <;> simp [bound_zero]
  have hstop : stop.elim xs.length (bound xs.length) =
      bound xs.length (stop.getD Int64.maxValue) := by
    cases stop <;> simp [bound_maxValue h]
  simp only [range, hstart, hstop, part, startOf, stopOf]
  rcases Nat.le_total (bound xs.length (start.getD 0)) (bound xs.length (stop.getD Int64.maxValue))
    with hle | hle
  · rw [Nat.max_eq_right hle]
  · rw [Nat.max_eq_left hle]
    simp [hle]

end ShapeOf

open ShapeOf

namespace SliceRange

theorem count_one (m n : Nat) : Progression.count 1 m n = n - m := by
  simp [Progression.count, Progression.distance]

/-- A slice in single steps selects the positions between its bounds. -/
theorem exists_resolve_one (h : rank < 9223372036854775807) (start stop : Int64) :
    ∃ r, resolve (intOfSize rank) start stop 1 = .ok r ∧
      r.len = ShapeOf.bound rank stop - ShapeOf.bound rank start ∧
        ∀ ε : Type, ((List.range r.len).mapM r.position : Outcome ε (List Nat)) =
          .ok (List.range' (ShapeOf.bound rank start)
          (ShapeOf.bound rank stop - ShapeOf.bound rank start)) := by
  have hlimit := intLimit_eq
  have hone : (1 : Int64).toInt = 1 := rfl
  have hne : (1 : Int64) ≠ 0 := by decide
  have hvalue : (intOfSize rank).toInt = rank := toInt_intOfSize (by omega)
  have hdim : 0 ≤ (intOfSize rank).toInt := by omega
  have hsize : (intOfSize rank).toInt.toNat = rank := by omega
  have hstart := ShapeOf.bound_le rank start
  have hstop := ShapeOf.bound_le rank stop
  obtain ⟨r, hr⟩ : ∃ r, resolve (intOfSize rank) start stop 1 = .ok r :=
    (resolve_eq_ok_iff hdim hne).mpr fun _ => by
    rw [hsize, hone, ← bound_eq, ← bound_eq]
    omega
  obtain ⟨-, -, hlen⟩ := parts_of_resolve hdim hne hr
  rw [hsize, hone, ← bound_eq, ← bound_eq, count_one] at hlen
  refine ⟨r, hr, hlen, fun ε => (positions_of_resolve hdim hne hr).trans (congrArg Outcome.ok ?_)⟩
  rw [hsize, hone, selected_eq_map (by decide), ← bound_eq, ← bound_eq, count_one]
  rw [List.range'_eq_map_range]
  exact List.map_congr_left fun i _ => by omega

end SliceRange

namespace Slice

variable {axis step : Option Int64}

def ofBounds (make : List Int64 → α) (x : α) (start stop : Int64) (axis step : Option Int64) :
    Inputs α :=
  [some x, some (make [start]), some (make [stop]), axis.map fun a => make [a], step.map fun n =>
    make [n]]

theorem optionalParameter_ofInts (n : Option Int64) :
    optionalParameter (n.map fun a => .ofInts [a]) = .ok (n.map fun a => some [some a]) := by
  cases n <;> rfl

theorem slicedDims_single (haxis : ∀ a ∈ axis, Axis.resolve 1 a = .ok 0) :
    slicedDims 1 1 (axis.map fun a => some [some a]) = .ok (some [0]) := by
  cases axis with
  | none => rfl
  | some a =>
    have ha := haxis a rfl
    have hdistinct : [0].eraseDups.length = 1 := rfl
    have hall : Axis.resolveAll 1 [a] = .ok [0] := by
      simp [Axis.resolveAll, ha, refuseIf, hdistinct]
    simp [slicedDims, hall, ha, refuseIf]

theorem slicedSteps_single (hstep : ∀ n ∈ step, n = 1) :
    slicedSteps 1 (step.map fun n => some [some n]) = .ok [some 1] := by
  cases step with
  | none => rfl
  | some n =>
    obtain rfl := hstep n rfl
    rfl

/-- What inference knows of a slice of a vector in single steps. -/
theorem infer_ofBounds {x : SymTensor} (hx : x.shape = .ranked [.ofSize rank])
    (hrank : rank < 9223372036854775807) (haxis : ∀ a ∈ axis, Axis.resolve 1 a = .ok 0)
    (hstep : ∀ n ∈ step, n = 1) :
    infer (ofBounds .ofInts x start stop axis step) =
      (cutElements x [.ofSize rank] [⟨0, some start, some stop, some 1⟩]
        (.ofShape x.dtype (.ranked [.ofSize (bound rank stop - bound rank start)])) >>= fun w =>
        .ok [w]) := by
  obtain ⟨r, hr, hlen, -⟩ := SliceRange.exists_resolve_one hrank start stop
  have hslice : SymDim.slice (.ofSize rank) (some start) (some stop) (some 1) =
      .ok (.ofSize (bound rank stop - bound rank start)) := by
    rw [← hlen]
    simp [SymDim.slice, SymDim.ofSize, SymDim.value?, refuseIf, hr]
  have hcut : cutDims [.ofSize rank] [⟨0, some start, some stop, some 1⟩] =
      .ok [.ofSize (bound rank stop - bound rank start)] := by
    simp [cutDims, hslice]
  have hinputs : ofBounds .ofInts x start stop axis step =
    [some x, some (.ofInts [start]), some (.ofInts [stop]), axis.map fun a => .ofInts [a],
      step.map fun n => .ofInts [n]] := rfl
  have hbound (n : Int64) : parameter (.ofInts [n]) = .ok (some [some n]) := rfl
  rw [infer_eq, hinputs]
  simp [SymInputs.demand, Inputs.find?, hbound, optionalParameter_ofInts, result, hx,
    slicedDims_single haxis, cutAlong, slicedSteps_single hstep, zipCuts, hcut, refuseIf]

theorem cutElements_single {x output : SymTensor} {es : List SymElement}
    (hes : x.elements = some es) (hrank : rank < 9223372036854775807) :
    cutElements x [.ofSize rank] [⟨0, some start, some stop, some 1⟩] output =
      .ok (output.setLeading
        ((List.range' (bound rank start) (bound rank stop - bound rank start)).map
        (es.getD · .unknown))) := by
  obtain ⟨r, hr, -, hpositions⟩ := SliceRange.exists_resolve_one hrank start stop
  have hget : x.get = (es.getD · .unknown) := by
    funext i
    rw [SymTensor.get, hes, Option.getD_some]
  simp only [cutElements, hes, List.getLast?_singleton, cutRange, SymDim.ofSize, SymDim.value?, hr,
    ok_bind, pure_eq, hpositions, hget]

theorem exists_infer_ofBounds {x : SymTensor} (hx : x.shape = .ranked [.ofSize rank])
    (hrank : rank < 9223372036854775807) (haxis : ∀ a ∈ axis, Axis.resolve 1 a = .ok 0)
    (hstep : ∀ n ∈ step, n = 1) :
    ∃ w, infer (ofBounds .ofInts x start stop axis step) = .ok [w] ∧ w.dtype = x.dtype ∧
      w.shape = .ofShape [bound rank stop - bound rank start] := by
  rw [infer_ofBounds hx hrank haxis hstep]
  cases hes : x.elements with
  | none =>
    have hcut : ∀ y : SymTensor,
        cutElements x [.ofSize rank] [⟨0, some start, some stop, some 1⟩] y = .ok y := by
      simp [cutElements, hes]
    exact ⟨_, bind_eq_ok.mpr ⟨_, hcut _, rfl⟩, rfl, rfl⟩
  | some es => exact ⟨_, bind_eq_ok.mpr ⟨_, cutElements_single hes hrank, rfl⟩, rfl, rfl⟩

end Slice

namespace SymTensor

theorem trackedCount_vector {n : Nat} (h : n ≤ maxElements) :
    trackedCount (.ofShape [n]) = some n := by
  have hvalue : (intOfSize n).toInt = n := toInt_intOfSize (h.trans_lt (by decide))
  refine trackedCount_eq_some_iff.mpr ⟨⟨[intOfSize n], rfl, le_rfl, ?_, by simp [hvalue]⟩, h⟩
  simp [Int64.le_iff_toInt_le, hvalue]

theorem vector_of_tracked (dtype : DataType) {es : List SymElement} (h : es.length ≤ maxElements) :
    vector dtype es = ⟨dtype, .ofShape [es.length], some es⟩ := by
  rw [vector, trackedCount_vector h]
  rfl

/-- Elements of a fresh description are replaced by as many others. -/
theorem setLeading_ofShape {dtype : DataType} {s : SymShape} {es : List SymElement}
    (h : trackedCount s = some es.length) :
    (ofShape dtype s).setLeading es = ⟨dtype, s, some es⟩ := by
  simp [ofShape, setLeading, h]

end SymTensor

namespace ShapeOf

open SymTensor

variable {x : SymTensor} {ds : List SymDim} {axis step : Option Int64}

theorem infer_ranked (op : ShapeOf) (hx : x.shape = .ranked ds) (hrank : ds.length < intLimit) :
    op.infer [some x] = .ok [.ofSizes (.ranked (part op.startOf op.stopOf ds))] := by
  have hrange := op.take_drop_range ds hrank
  simp only [infer, SymInputs.demand, Inputs.find?, List.getElem?_cons_zero, Option.join_some,
    orRefuse_some, ok_bind, hx, hrange, pure_eq]

/-- Of a vector that lists the sizes a slice lists the part between its bounds. -/
theorem infer_slice (hrank : ds.length ≤ maxElements) (haxis : ∀ a ∈ axis, Axis.resolve 1 a = .ok 0)
    (hstep : ∀ n ∈ step, n = 1) :
    Slice.infer (Slice.ofBounds .ofInts (.ofSizes (.ranked ds)) start stop axis step) =
      .ok [.ofSizes (.ranked (part start stop ds))] := by
  have hlimit : ds.length < 9223372036854775807 := hrank.trans_lt (by decide)
  have hstop := bound_le ds.length stop
  have hpart : (part start stop ds).length = bound ds.length stop - bound ds.length start :=
    length_part ds
  have hselected := part_eq_map start stop (ds.map SymElement.ofDim) .unknown
  rw [List.length_map, part_map] at hselected
  rw [ofSizes, vector_of_tracked .int (by simpa using hrank), List.length_map,
    Slice.infer_ofBounds (x := ⟨.int, .ofShape [ds.length], some (ds.map .ofDim)⟩) rfl hlimit haxis
    hstep, Slice.cutElements_single rfl hlimit, ok_bind, ← hselected, ← hpart, setLeading_ofShape,
    ofSizes, vector_of_tracked .int (by simp; omega), List.length_map]
  · rfl
  · rw [List.length_map]
    exact trackedCount_vector (by omega)

end ShapeOf

theorem Tensor.get?_ofList (xs : List α) (i : Nat) : (Tensor.ofList xs).get? [i] = xs[i]? := by
  by_cases hi : i < xs.length <;>
    simp [Tensor.get?, Tensor.offset?, Tensor.ofList, Layout.inBounds, Layout.strides,
      Layout.offset, Shape.volume, hi]

theorem Shape.counted_singleton {n : Nat} (h : n < sizeLimit) : Shape.Counted [n] := by
  have hextent : Shape.extent [n] = max n 1 := Nat.mul_one _
  refine Shape.counted_of_extent ?_
  rw [hextent]
  exact max_lt h (by decide)

theorem Value.held_ofList {xs : List Int64} (h : xs.length * Shape.entryBytes < byteLimit) :
    (Value.int (.ofList xs)).Held := by
  have hlimit : xs.length < sizeLimit := (lt_of_listed h).trans (by decide)
  have hbytes : (Value.int (.ofList xs)).bytes = xs.length * Shape.entryBytes := rfl
  refine ⟨⟨?_, show 1 * Shape.entryBytes < byteLimit by decide⟩, ?_, hbytes ▸ h⟩
  · simpa [Value.shape, Tensor.ofList] using hlimit
  · exact Shape.counted_singleton hlimit

namespace Slice

variable {axis step : Option Int64} {xs : List α}

/-- The kernel takes the part of a vector between the bounds. -/
theorem fill_ofList {r : SliceRange} (hlimit : xs.length < 9223372036854775807)
    (hr : SliceRange.resolve (intOfSize xs.length) start stop 1 = .ok r) {z : Tensor α}
    (hz : z.shape = [(part start stop xs).length]) :
    fill (.ofList xs) [r] z =
      (.ok (.ofList (part start stop xs)) : Outcome OpError (Tensor α)) := by
  obtain ⟨r', hr', hlen, hpositions⟩ := SliceRange.exists_resolve_one hlimit start stop
  cases hr.symm.trans hr'
  have hword : xs.length < sizeLimit := hlimit.trans (by decide)
  have hinside : List.Forall₂ SliceRange.Inside (Tensor.ofList xs).shape [r] :=
    .cons (SliceRange.inside_of_resolve hword hr) .nil
  have hcounted : Shape.Counted (Tensor.ofList xs).shape := Shape.counted_singleton hword
  have hshape : z.shape = [r].map (·.len) := by rw [hz, length_part, List.map_singleton, hlen]
  obtain ⟨u, hu, hkept, hread⟩ := exists_fill hinside hcounted hshape
  rw [hu, ok.injEq]
  refine Tensor.ext_get? (hkept.trans hz) fun index hindex => ?_
  have hplace := hread index hindex
  rw [hkept, hshape, List.map_singleton] at hindex
  obtain ⟨i, _, hi, hnil, rfl⟩ := List.forall₂_cons_right_iff.mp hindex
  obtain rfl := List.forall₂_nil_right_iff.mp hnil
  obtain ⟨places, hplaces, -, hget⟩ := hplace
  have hposition : (r.position i : Outcome OpError Nat) = .ok (bound xs.length start + i) := by
    obtain ⟨p, hp, hposition⟩ :=
      Related.get_left (mapM_eq_ok.mp (hpositions OpError)) (List.getElem?_range hi)
    rw [hposition]
    simpa [List.getElem?_range', hlen ▸ hi] using hp.symm
  obtain ⟨p, _, hp, hnil, rfl⟩ := List.forall₂_cons_left_iff.mp (mapM_eq_ok.mp hplaces)
  obtain rfl := List.forall₂_nil_left_iff.mp hnil
  cases hposition.symm.trans hp
  rw [hget, Tensor.get?_ofList, Tensor.get?_ofList, part, List.getElem?_drop,
    List.getElem?_take_of_lt (by omega)]

theorem findInts?_single (inputs : ValueInputs) {i : Nat} {n : Option Int64}
    (h : Inputs.find? inputs i = n.map fun a => .int (.ofList [a])) :
    inputs.findInts? i = .ok (n.map fun a => [a]) := by
  cases n with
  | none => simp only [ValueInputs.findInts?, h, Option.map_none]
  | some a => exact ValueInputs.findInts?_vector h le_rfl

theorem ranges_ofBounds {x : Value} {r : SliceRange}
    (hr : SliceRange.resolve (intOfSize rank) start stop 1 = .ok r)
    (haxis : ∀ a ∈ axis, Axis.resolve 1 a = .ok 0) (hstep : ∀ n ∈ step, n = 1) :
    ranges [rank] (ofBounds (fun ns => .int (.ofList ns)) x start stop axis step) = .ok [r] := by
  set inputs : ValueInputs :=
    ofBounds (fun ns => .int (.ofList ns)) x start stop axis step with hinputs
  have hstart : inputs.findInts? 1 = .ok (some [start]) :=
    findInts?_single inputs (n := some start) rfl
  have hstop : inputs.findInts? 2 = .ok (some [stop]) :=
    findInts?_single inputs (n := some stop) rfl
  have haxes : inputs.findInts? 3 = .ok (axis.map fun a => [a]) :=
    findInts?_single inputs (by rw [hinputs]; cases axis <;> rfl)
  have hsteps : inputs.findInts? 4 = .ok (step.map fun n => [n]) :=
    findInts?_single inputs (by rw [hinputs]; cases step <;> rfl)
  have hstepped : (step.map fun n => [n]).getD [1] = [1] := by
    cases step with
    | none => rfl
    | some n => simp [hstep n rfl]
  have hplaced : ∃ a, (axis.map fun a => [a]).getD [intOfSize 0] = [a] ∧
      Axis.resolve 1 a = .ok 0 := by
    cases axis with
    | none => exact ⟨intOfSize 0, rfl, rfl⟩
    | some a => exact ⟨a, rfl, haxis a rfl⟩
  obtain ⟨a, haxes', ha⟩ := hplaced
  simp [ranges, ValueInputs.demandInts, hstart, hstop, haxes, hsteps, hstepped, haxes', ha, hr,
    mapError, refuseIf]

theorem describe_ofBounds (v : Value) (start stop : Int64) (axis step : Option Int64) :
    (ofBounds (fun ns => .int (.ofList ns)) v start stop axis step).zipIdx.map
      Operator.slice.describeInput =
      ofBounds .ofInts v.toShapeOnly start stop axis step := by
  cases axis <;> cases step <;> rfl

/-- A slice of a vector in single steps is the part between its bounds. -/
theorem apply_ofBounds {xs : List Int64} (hroom : xs.length * Shape.entryBytes < byteLimit)
    (haxis : ∀ a ∈ axis, Axis.resolve 1 a = .ok 0) (hstep : ∀ n ∈ step, n = 1) :
    Chain.reference.apply .slice
      (ofBounds (fun ns => .int (.ofList ns)) (.int (.ofList xs)) start stop axis step) =
      .ok [.int (.ofList (part start stop xs))] := by
  have hlimit := intLimit_eq
  have hlimit : xs.length < 9223372036854775807 := Value.lt_of_listed hroom
  have hpart : (part start stop xs).length = bound xs.length stop - bound xs.length start :=
    length_part xs
  have hle := length_part_le start stop xs
  obtain ⟨r, hr, -, -⟩ := SliceRange.exists_resolve_one hlimit start stop
  obtain ⟨w, hw, hdtype, hshape⟩ : ∃ w,
      infer (ofBounds .ofInts (Value.int (.ofList xs)).toShapeOnly start stop
      axis step) = .ok [w] ∧ w.dtype = .int ∧
        w.shape = .ofShape [bound xs.length stop - bound xs.length start] :=
    exists_infer_ofBounds rfl hlimit haxis hstep
  rw [← hpart] at hshape
  refine Chain.apply_stored (y := .ofList (part start stop xs)) .slice ?_ rfl rfl
    (describe_ofBounds (.int (.ofList xs)) start stop axis step ▸ hw) hdtype hshape ?_
    (Value.held_ofList ((Nat.mul_le_mul_right _ hle).trans_lt hroom)) fun z hz => ?_
  · simp [ofBounds, Operator.demandArity, Operator.arity, refuseIf]
  · simp [Tensor.ofList]
    omega
  · have hranges := ranges_ofBounds (x := .int (.ofList xs)) hr haxis hstep
    have hprepare :
        Operator.slice.prepare .none (ofBounds (fun ns => .int (.ofList ns)) (.int (.ofList xs))
        start stop axis step) [.int z] =
          .ok (Kernel.sameType (.int (.ofList xs)) (.int z) fun x out => fill x [r] out) :=
      bind_eq_ok.mpr ⟨_, rfl, bind_eq_ok.mpr ⟨_, hranges, rfl⟩⟩
    refine bind_eq_ok.mpr ⟨_, hprepare, bind_eq_ok.mpr ⟨_, fill_ofList hlimit hr hz, rfl⟩⟩

end Slice

namespace ShapeOf

open SymTensor

variable {axis step : Option Int64}

theorem apply_eq {v : Value} (op : ShapeOf) (hv : v.Representable) :
    Chain.reference.apply (.shapeOf op) [some v] =
      .ok [.int (.ofList ((part op.startOf op.stopOf v.shape).map intOfSize))] := by
  set xs := (part op.startOf op.stopOf v.shape).map intOfSize with hxs
  have hle : xs.length ≤ v.shape.length := by
    rw [hxs, List.length_map]
    exact length_part_le _ _ v.shape
  have hroom : xs.length * Shape.entryBytes < byteLimit :=
    (Nat.mul_le_mul_right _ hle).trans_lt hv.rank
  have hrank : v.shape.length < intLimit := (Value.lt_of_listed hv.rank).trans (by decide)
  have hw : (Operator.shapeOf op).infer ([some v].zipIdx.map (Operator.shapeOf op).describeInput) =
      .ok [.ofSizes (.ranked ((part op.startOf op.stopOf v.shape).map .ofSize))] := by
    rw [Operator.describeInputs_shapeOnly rfl, ← part_map]
    exact op.infer_ranked rfl (by simpa using hrank)
  refine Chain.apply_stored (y := .ofList xs) (.shapeOf op) rfl rfl rfl hw rfl ?_ ?_
    (Value.held_ofList hroom)
    fun z hz => ?_
  · simp [ofSizes, vector, Tensor.ofList, hxs]
  · simp [Tensor.ofList]
    omega
  · have hprepare : (Operator.shapeOf op).prepare .none [some v] [.int z] =
        .ok (Kernel.intOutput (.int z) fun out =>
        .ok (out.overwrite
          (((v.shape.take (op.range v.rank).2).drop (op.range v.rank).1).map intOfSize))) := rfl
    have hlisted : ((v.shape.take (op.range v.rank).2).drop (op.range v.rank).1).map intOfSize =
        xs :=
      congrArg (List.map intOfSize) (op.take_drop_range v.shape hrank)
    have hrun : z.overwrite xs = .ofList xs := Tensor.overwrite_eq (u := .ofList xs) hz
    refine bind_eq_ok.mpr ⟨_, hprepare, ?_⟩
    rw [hlisted, Kernel.intOutput, hrun]
    rfl

/-- The sizes between two bounds are a slice in single steps of the vector of all sizes, of what is
known of them as well as of the sizes themselves. -/
theorem slice_of_sizes (op : ShapeOf) (haxis : ∀ a ∈ axis, a = 0 ∨ a = -1)
    (hstep : ∀ n ∈ step, n = 1) :
    (∀ (x : SymTensor) (ds : List SymDim), x.shape = .ranked ds → ds.length ≤ maxElements →
      ∃ sizes y, (Operator.shapeOf ⟨none, none⟩).infer [some x] = .ok [sizes] ∧
        (Operator.shapeOf op).infer [some x] = .ok [y] ∧
        Operator.slice.infer
        (Slice.ofBounds .ofInts sizes (op.start.getD 0) (op.stop.getD Int64.maxValue) axis step) =
          .ok [y] ∧
        sizes.elements = some (ds.map .ofDim) ∧
        y.elements = some ((part (op.start.getD 0) (op.stop.getD Int64.maxValue) ds).map .ofDim)) ∧
    ∀ v : Value, v.Representable →
      ∃ sizes y, Chain.reference.apply (.shapeOf ⟨none, none⟩) [some v] = .ok [sizes] ∧
        Chain.reference.apply (.shapeOf op) [some v] = .ok [y] ∧
        Chain.reference.apply .slice
        (Slice.ofBounds (fun ns => .int (.ofList ns)) sizes (op.start.getD 0)
          (op.stop.getD Int64.maxValue) axis step) = .ok [y] ∧
        y = .int (.ofList
        ((part (op.start.getD 0) (op.stop.getD Int64.maxValue) v.shape).map intOfSize)) := by
  have hresolve : ∀ a ∈ axis, Axis.resolve 1 a = .ok 0 := by
    intro a ha
    rcases haxis a ha with rfl | rfl <;> rfl
  constructor
  · intro x ds hx hrank
    have hlimit : ds.length < intLimit := hrank.trans_lt (by decide)
    have hlisted : ∀ es : List SymDim, es.length ≤ maxElements →
        (ofSizes (.ranked es)).elements = some (es.map .ofDim) := by
      intro es hes
      rw [ofSizes, vector_of_tracked .int (by simpa using hes)]
    have hpart := length_part_le op.startOf op.stopOf ds
    refine ⟨_, _, ?_, op.infer_ranked hx hlimit, infer_slice hrank hresolve hstep, hlisted ds hrank,
      hlisted _ (hpart.trans hrank)⟩
    have hall := infer_ranked ⟨none, none⟩ hx hlimit
    rwa [startOf, stopOf, Option.getD_none, Option.getD_none, part_all ds hlimit] at hall
  · intro v hv
    have hlimit : v.shape.length < intLimit := (Value.lt_of_listed hv.rank).trans (by decide)
    have hall := apply_eq ⟨none, none⟩ hv
    rw [startOf, stopOf, Option.getD_none, Option.getD_none, part_all v.shape hlimit] at hall
    refine ⟨_, _, hall, apply_eq op hv, ?_, rfl⟩
    rw [← part_map]
    exact Slice.apply_ofBounds (by simpa using hv.rank) hresolve hstep

/-- Of three sizes, one known and one named, the two that bounds from the end and behind it
leave. -/
theorem slice_of_sizes_named :
    Operator.slice.infer
      (Slice.ofBounds .ofInts ⟨.int, .ranked [.size 3], some [.int 4, .param "n", .unknown]⟩
        (-2) 9 (some (-1)) (some 1)) =
      (Operator.shapeOf ⟨some (-2), some 9⟩).infer
      [some (.ofShape .float (.ranked [.size 4, .param "n", .unknown]))] ∧
    Chain.reference.apply (.shapeOf ⟨some (-2), some 9⟩) [some (.float ⟨[2, 0, 5], [], rfl⟩)] =
      .ok [.int (.ofList [0, 5])] := by
  have hbounds : ∀ a ∈ some (-1 : Int64), a = 0 ∨ a = -1 := by simp
  have hsteps : ∀ n ∈ some (1 : Int64), n = 1 := by simp
  obtain ⟨hsym, hconcrete⟩ := slice_of_sizes ⟨some (-2), some 9⟩ hbounds hsteps
  obtain ⟨sizes, y, hsizes, hy, hslice, -, -⟩ :=
    hsym (.ofShape .float (.ranked [.size 4, .param "n", .unknown])) _ rfl (by decide)
  obtain ⟨_, v, -, hv, -, rfl⟩ := hconcrete (.float ⟨[2, 0, 5], [], rfl⟩) (by decide)
  cases hsizes
  exact ⟨hslice.trans hy.symm, hv⟩

end ShapeOf

end TensorGraph
