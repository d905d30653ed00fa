import TensorGraph.Proofs.Applying
import TensorGraph.Proofs.Writes

/-! Running sums. At each position of a lane stands the wrapped sum of the elements up to it, or
from it on. Sums that run the other way are those of the mirrored axis. -/

namespace TensorGraph

open Outcome

variable {ε α : Type}

def wrappedSum (ns : List Int64) : Int64 := .ofInt (ns.map Int64.toInt).sum

@[simp] theorem wrappedSum_nil : wrappedSum [] = 0 := rfl

@[simp] theorem wrappedSum_cons (n : Int64) (ns : List Int64) :
    wrappedSum (n :: ns) = n + wrappedSum ns := by
  simp [wrappedSum, Int64.ofInt_add]

@[simp] theorem wrappedSum_append (ms ns : List Int64) :
    wrappedSum (ms ++ ns) = wrappedSum ms + wrappedSum ns := by
  simp [wrappedSum, Int64.ofInt_add]

@[simp] theorem wrappedSum_reverse (ns : List Int64) : wrappedSum ns.reverse = wrappedSum ns := by
  simp [wrappedSum, List.sum_reverse]

namespace CumSum

/-- Whether the element at position `j` of a lane is in the sum at position `i`. -/
def takes (op : CumSum) (i j : Nat) : Bool :=
  match op.exclusive, op.reverse with
  | false, false => j ≤ i
  | true, false => j < i
  | false, true => i ≤ j
  | true, true => i < j

def part (op : CumSum) (i : Nat) (lane : List α) : List α :=
  (lane.zipIdx.filter fun (_, j) => op.takes i j).map Prod.fst

section Part

/-- The elements of a lane in front of a position and from it on, with their positions. -/
theorem zipIdx_split (lane : List α) (k : Nat) : ∃ front back, lane.zipIdx = front ++ back ∧
    (∀ s ∈ front, s.2 < k) ∧ (∀ s ∈ back, k ≤ s.2) ∧
      front.map Prod.fst = lane.take k ∧ back.map Prod.fst = lane.drop k := by
  refine ⟨(lane.take k).zipIdx, (lane.drop k).zipIdx (0 + (lane.take k).length), ?_, fun s hs => ?_,
    fun s hs => ?_, List.zipIdx_map_fst .., List.zipIdx_map_fst ..⟩
  · rw [← List.zipIdx_append, List.take_append_drop]
  · have hlt := List.snd_lt_add_of_mem_zipIdx hs
    have hlength := List.length_take_le k lane
    omega
  · have hle := List.le_snd_of_mem_zipIdx hs
    have hlt := List.snd_lt_add_of_mem_zipIdx hs
    rw [List.length_take] at hle hlt
    rw [List.length_drop] at hlt
    omega

theorem map_fst_filter_lt (lane : List α) (k : Nat) :
    (lane.zipIdx.filter fun s => decide (s.2 < k)).map Prod.fst = lane.take k := by
  obtain ⟨front, back, hsplit, hfront, hback, htake, -⟩ := zipIdx_split lane k
  have hkept : front.filter (fun s => decide (s.2 < k)) = front :=
    List.filter_eq_self.mpr fun s hs => decide_eq_true (hfront s hs)
  have hleft : back.filter (fun s => decide (s.2 < k)) = [] :=
    List.filter_eq_nil_iff.mpr fun s hs => by simpa using hback s hs
  rw [hsplit, List.filter_append, hkept, hleft, List.append_nil, htake]

theorem map_fst_filter_le (lane : List α) (k : Nat) :
    (lane.zipIdx.filter fun s => decide (k ≤ s.2)).map Prod.fst = lane.drop k := by
  obtain ⟨front, back, hsplit, hfront, hback, -, hdrop⟩ := zipIdx_split lane k
  have hleft : front.filter (fun s => decide (k ≤ s.2)) = [] :=
    List.filter_eq_nil_iff.mpr fun s hs => by simpa using hfront s hs
  have hkept : back.filter (fun s => decide (k ≤ s.2)) = back :=
    List.filter_eq_self.mpr fun s hs => decide_eq_true (hback s hs)
  rw [hsplit, List.filter_append, hkept, hleft, List.nil_append, hdrop]

/-- Sums from the front take in the elements up to a position. -/
theorem part_forward (exclusive : Bool) (i : Nat) (lane : List α) :
    (⟨exclusive, false⟩ : CumSum).part i lane = lane.take (if exclusive then i else i + 1) := by
  rw [← map_fst_filter_lt]
  cases exclusive <;> simp [part, takes]

theorem part_reverse (exclusive : Bool) (i : Nat) (lane : List α) :
    (⟨exclusive, true⟩ : CumSum).part i lane = lane.drop (if exclusive then i + 1 else i) := by
  rw [← map_fst_filter_le]
  cases exclusive <;> simp [part, takes]

theorem part_reversed {lane : List α} {i : Nat} (hi : i < lane.length) (exclusive : Bool) :
    (⟨exclusive, false⟩ : CumSum).part (lane.length - 1 - i) lane.reverse =
      ((⟨exclusive, true⟩ : CumSum).part i lane).reverse := by
  rw [part_forward, part_reverse, List.take_reverse]
  cases exclusive
  · have hdrop : lane.length - (lane.length - 1 - i + 1) = i := by omega
    simp [hdrop]
  · have hdrop : lane.length - (lane.length - 1 - i) = i + 1 := by omega
    simp [hdrop]

theorem wrappedSum_part_turned {lane : List Int64} {i : Nat} (hi : i < lane.length)
    (exclusive reverse : Bool) :
    wrappedSum ((⟨exclusive, !reverse⟩ : CumSum).part (lane.length - 1 - i) lane.reverse) =
      wrappedSum ((⟨exclusive, reverse⟩ : CumSum).part i lane) := by
  cases reverse with
  | true => rw [Bool.not_true, part_reversed hi, wrappedSum_reverse]
  | false =>
    have hother : lane.length - 1 - i < lane.reverse.length := by
      rw [List.length_reverse]
      omega
    have hback : lane.length - 1 - (lane.length - 1 - i) = i := by omega
    have hpart := part_reversed hother exclusive
    rw [List.length_reverse, List.reverse_reverse, hback] at hpart
    rw [Bool.not_false, hpart, wrappedSum_reverse]

/-- The element at a position is what tells inclusive sums from exclusive ones. -/
theorem wrappedSum_part_inclusive {lane : List Int64} {i : Nat} {a : Int64} (ha : lane[i]? = some a)
    (reverse : Bool) :
    wrappedSum ((⟨false, reverse⟩ : CumSum).part i lane) =
      wrappedSum ((⟨true, reverse⟩ : CumSum).part i lane) + a := by
  cases reverse with
  | false =>
    rw [part_forward, part_forward]
    simp [List.take_add_one, ha]
  | true =>
    obtain ⟨hi, rfl⟩ := List.getElem?_eq_some_iff.mp ha
    rw [part_reverse, part_reverse]
    rw [if_neg Bool.false_ne_true, if_pos rfl, List.drop_eq_getElem_cons hi, wrappedSum_cons,
      Int64.add_comm]

end Part

section Order

def order (op : CumSum) (size : Nat) : List Nat :=
  if op.reverse then (List.range size).reverse else List.range size

def place (op : CumSum) (size p : Nat) : Nat := if op.reverse then size - 1 - p else p

variable (op : CumSum) {size p : Nat}

theorem place_lt (hp : p < size) : op.place size p < size := by
  rw [place]
  split_ifs <;> omega

theorem place_place (hp : p < size) : op.place size (op.place size p) = p := by
  rw [place, place]
  split_ifs <;> omega

theorem getElem?_order (hp : p < size) : (op.order size)[p]? = some (op.place size p) := by
  rw [order, place]
  split_ifs
  · rw [List.getElem?_reverse (by simpa using hp), List.length_range]
    exact List.getElem?_range (by omega)
  · exact List.getElem?_range hp

/-- What is summed before a step, or up to it, is the part of the lane at its position. -/
theorem wrappedSum_take {lane : List Int64} (hp : p < lane.length) :
    wrappedSum ((if op.reverse then lane.reverse else lane).take
      (if op.exclusive then p else p + 1)) =
      wrappedSum (op.part (op.place lane.length p) lane) := by
  obtain ⟨exclusive, reverse⟩ := op
  cases reverse with
  | false => exact congrArg wrappedSum (part_forward exclusive p lane).symm
  | true =>
    have hplace : lane.length - 1 - p < lane.length := by omega
    have hback : lane.length - 1 - (lane.length - 1 - p) = p := by omega
    have hpart := part_reversed hplace exclusive
    rw [hback, part_forward] at hpart
    simp [place, hpart]

end Order

section Filling

variable {op : CumSum} {x y z : Tensor Int64} {dim size : Nat} {start : Index}

theorem length_sums (exclusive : Bool) (total : Int64) (entries : List (Index × Int64)) :
    (sums exclusive total entries).length = entries.length := by
  induction entries generalizing total with
  | nil => rfl
  | cons e entries ih => simp [sums, ih]

/-- At each step stands the sum of the elements before it, or up to it. -/
theorem getElem?_sums (exclusive : Bool) (total : Int64) {entries : List (Index × Int64)} {p : Nat}
    {index : Index} {a : Int64} (h : entries[p]? = some (index, a)) :
    (sums exclusive total entries)[p]? =
      some (index,
      total + wrappedSum ((entries.map Prod.snd).take (if exclusive then p else p + 1))) := by
  induction entries generalizing total p with
  | nil => cases h
  | cons e entries ih =>
    cases p with
    | zero =>
      cases h
      cases exclusive <;> simp [sums]
    | succ p =>
      rw [sums, List.getElem?_cons_succ, ih _ h]
      cases exclusive <;> simp [Int64.add_assoc]

theorem lane_eq {out : Tensor Int64} (hsize : x.shape[dim]? = some size)
    (hout : out.shape = x.shape) :
    op.lane x out dim start =
      (op.order size).filterMap fun i => (x.get? (start.set dim i)).map (start.set dim i, ·) := by
  have hgetD : x.shape.getD dim 0 = size := by simp [List.getD_eq_getElem?_getD, hsize]
  rw [lane, hgetD, order]
  refine List.filterMap_congr fun i _ => ?_
  dsimp only
  rw [Tensor.offset?, hout]
  cases hread : x.get? (start.set dim i) with
  | none => split_ifs <;> rfl
  | some a =>
    have hinside :=
      Layout.inBounds_iff.mpr (Tensor.isSome_get?_iff.mp (Option.isSome_iff_exists.mpr ⟨a, hread⟩))
    simp [hinside]

theorem map_snd_lane {out : Tensor Int64} (hsize : x.shape[dim]? = some size)
    (hout : out.shape = x.shape) :
    (op.lane x out dim start).map Prod.snd =
      if op.reverse then (x.lane dim size start).reverse else x.lane dim size start := by
  have hsnd : ∀ i, ((x.get? (start.set dim i)).map (start.set dim i, ·)).map Prod.snd =
      x.get? (start.set dim i) := by
    intro i
    cases x.get? (start.set dim i) <;> rfl
  rw [lane_eq hsize hout, List.map_filterMap, order]
  simp only [hsnd]
  split_ifs
  · rw [List.filterMap_reverse, Tensor.lane]
  · rfl

def totals (op : CumSum) (x : Tensor Int64) (dim : Nat) : List (Index × Int64) :=
  (Index.all (x.shape.set dim 1)).flatMap fun start => sums op.exclusive 0 (op.lane x x dim start)

theorem fill_eq {out : Tensor Int64} (hsize : x.shape[dim]? = some size)
    (hout : out.shape = x.shape) :
    (op.fill x out dim : Outcome ε (Tensor Int64)) =
      if Shape.Counted (x.shape.set dim 1) then .ok (out.write (op.totals x dim)) else .fault := by
  rw [fill, Tensor.laneStarts, Layout.checkedAll_eq]
  split_ifs
  · rw [ok_bind, totals]
    simp only [lane_eq hsize hout, lane_eq hsize rfl]
    rfl
  · rfl

theorem getElem?_sums_lane (op : CumSum) (hsize : x.shape[dim]? = some size)
    (hstart : List.Forall₂ (· < ·) start (x.shape.set dim 1)) {p : Nat} (hp : p < size) :
    (sums op.exclusive 0 (op.lane x x dim start))[p]? =
      some (start.set dim (op.place size p),
      wrappedSum (op.part (op.place size p) (x.lane dim size start))) := by
  have hread := Tensor.forall₂_lane hsize hstart
  have hentries :
      List.Forall₂ (fun i e => (x.get? (start.set dim i)).map (start.set dim i, ·) = some e)
      (op.order size) (op.lane x x dim start) := by
    rw [lane_eq hsize rfl]
    refine forall₂_filterMap fun i hi => ?_
    have hlt : i < size := by
      rw [order] at hi
      split_ifs at hi <;> simpa using hi
    obtain ⟨a, -, ha⟩ := Related.get_left hread (List.getElem?_range hlt)
    simp [ha]
  obtain ⟨e, he, hread⟩ := Related.get_left hentries (op.getElem?_order hp)
  obtain ⟨a, -, rfl⟩ := Option.map_eq_some_iff.mp hread
  have htake := wrappedSum_take op (hp.trans_eq (Tensor.length_lane hsize hstart).symm)
  rw [Tensor.length_lane hsize hstart] at htake
  rw [getElem?_sums _ _ he, map_snd_lane hsize rfl, htake, Int64.zero_add]

theorem mem_totals_iff (hsize : x.shape[dim]? = some size) {s : Index × Int64} :
    s ∈ op.totals x dim ↔
    ∃ start i, List.Forall₂ (· < ·) start (x.shape.set dim 1) ∧ i < size ∧
      s = (start.set dim i, wrappedSum (op.part i (x.lane dim size start))) := by
  have hlength : ∀ start, List.Forall₂ (· < ·) start (x.shape.set dim 1) →
      (sums op.exclusive 0 (op.lane x x dim start)).length = size := by
    intro start hstart
    rw [length_sums, ← List.length_map Prod.snd, map_snd_lane hsize rfl]
    split_ifs <;> simp [Tensor.length_lane hsize hstart]
  rw [totals, List.mem_flatMap]
  constructor
  · rintro ⟨start, hstart, hs⟩
    have hstart := Index.lt_of_mem_all hstart
    obtain ⟨p, hp⟩ := List.getElem?_of_mem hs
    have hlt : p < size := hlength start hstart ▸ (List.getElem?_eq_some_iff.mp hp).1
    rw [op.getElem?_sums_lane hsize hstart hlt, Option.some.injEq] at hp
    exact ⟨start, op.place size p, hstart, op.place_lt hlt, hp.symm⟩
  · rintro ⟨start, i, hstart, hi, rfl⟩
    have hsums := op.getElem?_sums_lane hsize hstart (op.place_lt hi)
    rw [op.place_place hi] at hsums
    exact ⟨start, Index.mem_all_iff.mpr hstart, List.mem_of_getElem? hsums⟩

structure Running (op : CumSum) (x : Tensor Int64) (dim size : Nat) (y : Tensor Int64) : Prop where
  shape_eq : y.shape = x.shape
  sum_eq : ∀ start, List.Forall₂ (· < ·) start (x.shape.set dim 1) → ∀ i < size,
    y.get? (start.set dim i) = some (wrappedSum (op.part i (x.lane dim size start)))

theorem Running.unique (hsize : x.shape[dim]? = some size) (hy : op.Running x dim size y)
    (hz : op.Running x dim size z) : y = z := by
  refine Tensor.ext_get? (hy.shape_eq.trans hz.shape_eq.symm) fun index hindex => ?_
  rw [hy.shape_eq] at hindex
  obtain ⟨start, i, hstart, hi, rfl⟩ := Index.exists_start hindex hsize
  rw [hy.sum_eq start hstart i hi, hz.sum_eq start hstart i hi]

theorem running_write (op : CumSum) {out : Tensor Int64} (hsize : x.shape[dim]? = some size)
    (hout : out.shape = x.shape) :
    op.Running x dim size (out.write (op.totals x dim)) := by
  refine ⟨(Tensor.shape_write _ _).trans hout, fun start hstart i hi => ?_⟩
  have hdim := (List.getElem?_eq_some_iff.mp hsize).1
  have hinside : List.Forall₂ (· < ·) (start.set dim i) x.shape := by
    have hset := Index.set_lt hstart hi
    rwa [← (List.getElem?_eq_some_iff.mp hsize).2, List.set_getElem_self hdim] at hset
  refine Tensor.get?_write_of_agree ((mem_totals_iff hsize).mpr ⟨start, i, hstart, hi, rfl⟩)
    (fun b hb => ?_)
    (hout ▸ hinside)
  obtain ⟨start', i', hstart', -, heq⟩ := (mem_totals_iff hsize).mp hb
  obtain ⟨hplace, rfl⟩ := Prod.mk.inj heq
  obtain ⟨rfl, rfl⟩ := Index.set_injective hdim hstart hstart' hplace
  rfl

/-- An output of the shape of the input is filled with the running sums, if the starts of the lanes
can be counted. -/
theorem fill_eq_ok_iff {out : Tensor Int64} (hsize : x.shape[dim]? = some size)
    (hout : out.shape = x.shape) :
    (op.fill x out dim : Outcome ε (Tensor Int64)) = .ok y ↔
      Shape.Counted (x.shape.set dim 1) ∧ op.Running x dim size y := by
  have hwrite := op.running_write hsize hout
  rw [fill_eq hsize hout]
  split_ifs with hcounted
  · simp only [ok.injEq, hcounted, true_and]
    exact ⟨fun h => h ▸ hwrite, fun h => hwrite.unique hsize h⟩
  · simp [hcounted]

end Filling

end CumSum

namespace Index

variable {dim size i : Nat} {index start : Index} {shape : Shape}

def mirrored (dim size : Nat) (index : Index) : Index := index.modify dim (size - 1 - ·)

theorem mirrored_set (dim size i : Nat) (start : Index) :
    mirrored dim size (start.set dim i) = start.set dim (size - 1 - i) := by
  refine List.ext_getElem? fun k => ?_
  rw [mirrored, List.getElem?_modify, List.getElem?_set, List.getElem?_set]
  by_cases hk : dim = k <;> by_cases hlength : k < start.length <;> simp [hk, hlength]

theorem mirrored_mirrored (hsize : shape[dim]? = some size)
    (hindex : List.Forall₂ (· < ·) index shape) :
    mirrored dim size (mirrored dim size index) = index := by
  obtain ⟨start, i, -, hi, rfl⟩ := exists_start hindex hsize
  have hback : size - 1 - (size - 1 - i) = i := by omega
  rw [mirrored_set, mirrored_set, hback]

theorem set_lt_shape (hsize : shape[dim]? = some size)
    (hstart : List.Forall₂ (· < ·) start (shape.set dim 1)) (hi : i < size) : List.Forall₂ (· < ·)
    (start.set dim i) shape := by
  have hset := set_lt hstart hi
  obtain ⟨hdim, rfl⟩ := List.getElem?_eq_some_iff.mp hsize
  rwa [List.set_getElem_self hdim] at hset

theorem mirrored_lt (hsize : shape[dim]? = some size) (hindex : List.Forall₂ (· < ·) index shape) :
    List.Forall₂ (· < ·) (mirrored dim size index) shape := by
  obtain ⟨start, i, hstart, hi, rfl⟩ := exists_start hindex hsize
  rw [mirrored_set]
  exact set_lt_shape hsize hstart (by omega)

end Index

namespace Tensor

variable {t : Tensor α} {dim size i : Nat} {index start : Index}

def mirrored (t : Tensor α) (dim size : Nat) : Tensor α :=
  t.write (t.moved (Index.mirrored dim size))

@[simp] theorem shape_mirrored (t : Tensor α) (dim size : Nat) :
    (t.mirrored dim size).shape = t.shape :=
  shape_write _ _

theorem get?_mirrored (hsize : t.shape[dim]? = some size)
    (hindex : List.Forall₂ (· < ·) index t.shape) :
    (t.mirrored dim size).get? index = t.get? (Index.mirrored dim size index) := by
  have hplace := Index.mirrored_lt hsize hindex
  have hinjective :
      Set.InjOn (Index.mirrored dim size) {index | List.Forall₂ (· < ·) index t.shape} := by
    intro i hi j hj h
    have hback := congrArg (Index.mirrored dim size) h
    rwa [Index.mirrored_mirrored hsize hi, Index.mirrored_mirrored hsize hj] at hback
  have hmoved := get?_write_moved (t := t) hinjective hplace
  rw [Index.mirrored_mirrored hsize hindex] at hmoved
  exact hmoved hindex

theorem mirrored_mirrored (hsize : t.shape[dim]? = some size) :
    (t.mirrored dim size).mirrored dim size = t := by
  refine ext_get? (by simp) fun index hindex => ?_
  rw [shape_mirrored, shape_mirrored] at hindex
  have hplace := Index.mirrored_lt hsize hindex
  rw [get?_mirrored (by simpa using hsize) (by simpa using hindex), get?_mirrored hsize hplace,
    Index.mirrored_mirrored hsize hindex]

theorem lane_mirrored (hsize : t.shape[dim]? = some size)
    (hstart : List.Forall₂ (· < ·) start (t.shape.set dim 1)) :
    (t.mirrored dim size).lane dim size start = (t.lane dim size start).reverse := by
  have hsize' : (t.mirrored dim size).shape[dim]? = some size := by simpa using hsize
  have hstart' : List.Forall₂ (· < ·) start ((t.mirrored dim size).shape.set dim 1) := by
    simpa using hstart
  have hlength := length_lane hsize hstart
  refine List.ext_getElem? fun i => ?_
  by_cases hi : i < size
  · have hother : size - 1 - i < size := by omega
    have hinside := Index.set_lt_shape hsize hstart hi
    rw [getElem?_lane hsize' hstart' hi, get?_mirrored hsize hinside, Index.mirrored_set,
      List.getElem?_reverse (hi.trans_eq hlength.symm), hlength, getElem?_lane hsize hstart hother]
  · rw [List.getElem?_eq_none, List.getElem?_eq_none]
    · simpa [hlength] using hi
    · simpa [length_lane hsize' hstart'] using hi

end Tensor

namespace CumSum

variable {op : CumSum} {x y z : Tensor Int64} {dim size : Nat}

/-- Sums that run the other way are those of the mirrored axis, mirrored. -/
theorem Running.mirrored (hsize : x.shape[dim]? = some size) {exclusive reverse : Bool}
    (h : Running ⟨exclusive, reverse⟩ x dim size y) :
    Running ⟨exclusive, !reverse⟩ (x.mirrored dim size) dim size (y.mirrored dim size) := by
  have hyshape := h.shape_eq
  refine ⟨by simpa using hyshape, fun start hstart i hi => ?_⟩
  rw [Tensor.shape_mirrored] at hstart
  have hother : size - 1 - i < size := by omega
  have hback : size - 1 - (size - 1 - i) = i := by omega
  have hlength := Tensor.length_lane hsize hstart
  have hturned := wrappedSum_part_turned (hother.trans_eq hlength.symm) exclusive reverse
  rw [hlength, hback] at hturned
  rw [Tensor.get?_mirrored (hyshape ▸ hsize) (hyshape ▸ Index.set_lt_shape hsize hstart hi),
    Index.mirrored_set, h.sum_eq start hstart _ hother, Tensor.lane_mirrored hsize hstart, hturned]

theorem Running.inclusive (hsize : x.shape[dim]? = some size) {reverse : Bool}
    (hy : Running ⟨false, reverse⟩ x dim size y) (hz : Running ⟨true, reverse⟩ x dim size z)
    {index : Index} (hindex : List.Forall₂ (· < ·) index x.shape) :
    ∃ a b, x.get? index = some a ∧ z.get? index = some b ∧ y.get? index = some (b + a) := by
  obtain ⟨start, i, hstart, hi, rfl⟩ := Index.exists_start hindex hsize
  obtain ⟨a, ha⟩ := Option.isSome_iff_exists.mp (Tensor.isSome_get?_iff.mpr hindex)
  have hread : (x.lane dim size start)[i]? = some a :=
    (Tensor.getElem?_lane hsize hstart hi).trans ha
  refine ⟨a, _, ha, hz.sum_eq start hstart i hi, ?_⟩
  rw [hy.sum_eq start hstart i hi, wrappedSum_part_inclusive hread]

section Applying

variable {k : Tensor Int64} {axis : Int64}

/-- The rule gives the shape of the input where the axis is one of it. -/
theorem infer_eq_ok (op : CumSum) (hrank : k.shape.length ≤ 1) (haxis : k.data = [axis])
    (hdim : Axis.resolve x.shape.length axis = .ok dim) :
    (Operator.cumSum op).infer
      ([some (.int x), some (.int k)].zipIdx.map (Operator.cumSum op).describeInput) =
      .ok [.ofShape .int (.ofShape x.shape)] := by
  have htold : ((Operator.cumSum op).told 1 (.int k)).singleInt? = some axis := by
    rw [SymTensor.singleInt?, SymTensor.single?, Operator.elements_told rfl hrank, haxis]
    rfl
  have hlength : ((Operator.cumSum op).told 0 (.int x)).rank? = some x.shape.length := by
    rw [SymTensor.rank?, Operator.shape_told]
    simp [SymShape.ofShape, Value.shape]
  rw [Operator.infer, CumSum.infer, Operator.demand_told _ rfl, Operator.demand_told _ rfl, ok_bind,
    ok_bind, hlength, htold]
  simp only [hdim, ok_bind]
  rw [SymTensor.sameShape, Operator.shape_told, Operator.dtype_told]
  rfl

theorem prepare_eq (op : CumSum) (hrank : k.shape.length ≤ 1) (haxis : k.data = [axis])
    (hdim : Axis.resolve x.shape.length axis = .ok dim) (z : Tensor Int64) :
    ((Operator.cumSum op).prepare .none [some (.int x), some (.int k)] [.int z] >>= fun run =>
      run ()) =
      op.fill x z dim >>= Kernel.filled := by
  have hread : ValueInputs.findInt? [some (.int x), some (.int k)] 1 = .ok (some axis) := by
    rw [ValueInputs.findInt?, ValueInputs.findInts?_vector rfl hrank, haxis]
    rfl
  have hdemand : ValueInputs.demand [some (.int x), some (.int k)] 0 = .ok (.int x) := rfl
  have hresolved : Axis.resolve (Value.int x).rank axis = .ok dim := hdim
  have hgiven : (.orRefuse .missingInputs (some axis) : Outcome OpError Int64) = .ok axis := rfl
  rw [Operator.prepare, prepare, hdemand, ok_bind, hread, ok_bind, hgiven, ok_bind, hresolved]
  rfl

/-- Outputs are the running sums, where signed 64-bit integers hold the sizes and the starts of the
lanes can be counted. -/
theorem apply_eq_ok_iff (op : CumSum) (hx : (Value.int x).Held) (hrank : k.shape.length ≤ 1)
    (haxis : k.data = [axis]) (hdim : Axis.resolve x.shape.length axis = .ok dim)
    (hsize : x.shape[dim]? = some size) (vs : List Value) :
    Chain.reference.apply (.cumSum op) [some (.int x), some (.int k)] = .ok vs ↔
      ((∀ n ∈ x.shape, n < intLimit) ∧ (size = 0 → Shape.Counted (x.shape.set dim 1))) ∧
        ∃ y, op.Running x dim size y ∧ vs = [.int y] := by
  have hcounted : x.shape.Counted := hx.counted
  have hzeros : ∃ z, (Value.zeros ⟨.int, x.shape⟩ : Outcome OpError Value) = .ok z :=
    hx.exists_zeros
  have hrun : ∀ z : Tensor Int64, z.shape = x.shape →
      ((Operator.cumSum op).prepare .none [some (.int x), some (.int k)] [.int z] >>= fun run =>
        run ()) =
        (op.fill x x dim : Outcome OpError _) >>= Kernel.filled := by
    intro z hz
    rw [prepare_eq op hrank haxis hdim, fill_eq hsize hz, fill_eq hsize rfl,
      (op.running_write hsize hz).unique hsize (op.running_write hsize rfl)]
  rw [Chain.apply_eq_ok_iff (x := x) (.cumSum op) rfl rfl rfl (infer_eq_ok op hrank haxis hdim) rfl
    (SymTensor.shape_ofShape _ _) hx.sizes hrun, ← hcounted.starts_iff hsize]
  simp only [fill_eq_ok_iff hsize rfl]
  constructor
  · rintro ⟨hsizes, -, y, ⟨hstarts, hy⟩, rfl⟩
    exact ⟨⟨hsizes, hstarts⟩, y, hy, rfl⟩
  · rintro ⟨⟨hsizes, hstarts⟩, y, hy, rfl⟩
    exact ⟨hsizes, hzeros, y, ⟨hstarts, hy⟩, rfl⟩

end Applying

end CumSum

end TensorGraph
