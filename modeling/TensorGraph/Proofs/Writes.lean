import Mathlib.Data.Set.Function
import TensorGraph.Proofs.Lengths
import TensorGraph.Proofs.Spreading

/-! Tensors as functions of their positions. Elements that are written at different positions are
read there afterwards, and nothing else changes. The positions of a lane along one dimension are
those of its start with another coordinate along the dimension, so that its elements are read in
order. -/

namespace TensorGraph

open Outcome

variable {ε α β : Type} {index o : Index} {shape : Shape}

theorem Index.nodup_all (shape : Shape) : (all shape).Nodup :=
  List.Nodup.of_map _ (Layout.map_offset_all shape ▸ List.nodup_range)

theorem Shape.le_volume_of_lt (h : List.Forall₂ (· < ·) index shape) {n : Nat} (hn : n ∈ shape) :
    n ≤ shape.volume := by
  have hpos := List.length_pos_of_mem (Index.mem_all_iff.mpr h)
  rw [Index.length_all] at hpos
  rw [Shape.volume_eq_prod] at hpos ⊢
  exact Nat.le_of_dvd hpos (List.dvd_prod hn)

namespace Tensor

variable {t u : Tensor α} {a : α} {entries : List (Index × α)}

theorem forall₂_get? (t : Tensor α) :
    List.Forall₂ (fun index a => t.get? index = some a) (Index.all t.shape) t.data :=
  List.forall₂_iff_zip.mpr ⟨by rw [Index.length_all, t.length_data], fun h => get?_of_mem_zip h⟩

theorem mem_zip_iff : (index, a) ∈ (Index.all t.shape).zip t.data ↔ t.get? index = some a := by
  refine ⟨get?_of_mem_zip, fun hread => ?_⟩
  have hindex := isSome_get?_iff.mp (Option.isSome_iff_exists.mpr ⟨a, hread⟩)
  obtain ⟨k, hk⟩ := List.getElem?_of_mem (Index.mem_all_iff.mpr hindex)
  obtain ⟨b, hb, hread'⟩ := Related.get_left t.forall₂_get? hk
  obtain rfl := Option.some.inj (hread.symm.trans hread')
  exact List.mem_of_getElem? (List.getElem?_zip_eq_some.mpr ⟨hk, hb⟩)

theorem ext_get? (hshape : t.shape = u.shape)
    (h : ∀ index, List.Forall₂ (· < ·) index t.shape → t.get? index = u.get? index) : t = u := by
  rw [ext_iff]
  refine ⟨hshape, List.ext_getElem? fun i => ?_⟩
  have hlength : t.data.length = u.data.length := by rw [t.length_data, u.length_data, hshape]
  by_cases hi : i < t.data.length
  · obtain ⟨index, hindex, hread⟩ := Related.get_right t.forall₂_get? (List.getElem?_eq_getElem hi)
    obtain ⟨b, hb, hread'⟩ := Related.get_left u.forall₂_get? (hshape ▸ hindex)
    rw [hb, List.getElem?_eq_getElem hi, ← hread, ← hread']
    exact h index (Index.lt_of_mem_all (List.mem_of_getElem? hindex))
  · rw [List.getElem?_eq_none (not_lt.mp hi), List.getElem?_eq_none (hlength ▸ not_lt.mp hi)]

theorem overwrite_eq (hshape : t.shape = u.shape) : t.overwrite u.data = u := by
  have hlength : t.data.length = u.data.length := by rw [t.length_data, u.length_data, hshape]
  rw [ext_iff]
  exact ⟨hshape, by simp [overwrite, hlength]⟩

theorem write_cons (t : Tensor α) (e : Index × α) (entries : List (Index × α)) :
    t.write (e :: entries) = (t.write [e]).write entries := rfl

theorem get?_write_of_ne (h : ∀ e ∈ entries, e.1 ≠ o) : (t.write entries).get? o = t.get? o := by
  induction entries generalizing t with
  | nil => rfl
  | cons e entries ih =>
    rw [List.forall_mem_cons] at h
    rw [write_cons, ih h.2, get?_write]
    simp [h.1]

/-- What is written at a position, however often, is read there if it is always the same. -/
theorem get?_write_of_agree (hmem : (o, a) ∈ entries) (hagree : ∀ b, (o, b) ∈ entries → b = a)
    (ho : List.Forall₂ (· < ·) o t.shape) : (t.write entries).get? o = some a := by
  induction entries generalizing t with
  | nil => cases hmem
  | cons e entries ih =>
    rw [write_cons]
    by_cases hagain : ∃ b, (o, b) ∈ entries
    · obtain ⟨b, hb⟩ := hagain
      obtain rfl := hagree b (List.mem_cons_of_mem e hb)
      exact ih hb (fun c hc => hagree c (List.mem_cons_of_mem e hc)) ((shape_write t [e]).symm ▸ ho)
    · have hlast : ∀ s ∈ entries, s.1 ≠ o := fun s hs heq => hagain ⟨s.2, heq ▸ hs⟩
      obtain rfl : (o, a) = e :=
        (List.mem_cons.mp hmem).resolve_right fun hlater => hagain ⟨a, hlater⟩
      obtain ⟨b, hb⟩ := Option.isSome_iff_exists.mp (isSome_get?_iff.mpr ho)
      rw [get?_write_of_ne hlast, get?_write, hb]
      simp

theorem get?_write_of_mem (hnodup : (entries.map Prod.fst).Nodup) (hmem : (o, a) ∈ entries)
    (ho : List.Forall₂ (· < ·) o t.shape) : (t.write entries).get? o = some a :=
  get?_write_of_agree hmem
    (fun _ hb => congrArg Prod.snd (List.inj_on_of_nodup_map hnodup hb hmem rfl)) ho

theorem writeAt_offset (h : List.Forall₂ (· < ·) index t.shape) (a : α) :
    (t.writeAt (Layout.offset (Layout.strides t.shape) index) [a] : Outcome ε (Tensor α)) =
      .ok (t.write [(index, a)]) := by
  obtain ⟨u, hu, hshape, hdata⟩ := exists_set? h a
  have hwrite : t.write [(index, a)] = (t.set? index a).getD t := rfl
  have hlt := (List.getElem?_eq_some_iff.mp (Index.getElem?_all h)).1
  rw [Index.length_all, ← t.length_data] at hlt
  have hfits : Layout.offset (Layout.strides t.shape) index + [a].length ≤ t.data.length := hlt
  rw [hwrite, hu, Option.getD_some, writeAt, dif_pos hfits]
  refine congrArg Outcome.ok (ext_iff.mpr ⟨hshape.symm, ?_⟩)
  rw [hdata, List.set_eq_take_append_cons_drop, if_pos hlt]
  simp

def moved (f : Index → Index) (t : Tensor α) : List (Index × α) :=
  ((Index.all t.shape).zip t.data).map fun s => (f s.1, s.2)

variable {f : Index → Index}

theorem map_fst_moved (f : Index → Index) (t : Tensor α) :
    (t.moved f).map Prod.fst = (Index.all t.shape).map f := by
  have hlength : (Index.all t.shape).length ≤ t.data.length := by
    rw [Index.length_all, t.length_data]
  conv_rhs => rw [← List.map_fst_zip hlength]
  rw [moved, List.map_map, List.map_map]
  rfl

/-- Elements that are written where a map takes their positions are read there, as long as it takes
no two of them to one place. -/
theorem get?_write_moved (hf : Set.InjOn f {index | List.Forall₂ (· < ·) index u.shape})
    (hindex : List.Forall₂ (· < ·) index u.shape)
    (hplace : List.Forall₂ (· < ·) (f index) t.shape) :
    (t.write (u.moved f)).get? (f index) = u.get? index := by
  have hnodup : ((u.moved f).map Prod.fst).Nodup := by
    rw [map_fst_moved]
    refine List.Nodup.map_on (fun i hi j hj => ?_) (Index.nodup_all _)
    exact hf (Index.lt_of_mem_all hi) (Index.lt_of_mem_all hj)
  obtain ⟨k, hk⟩ := List.getElem?_of_mem (Index.mem_all_iff.mpr hindex)
  obtain ⟨a, ha, hread⟩ := Related.get_left u.forall₂_get? hk
  rw [hread]
  refine get?_write_of_mem hnodup (List.mem_map.mpr ⟨(index, a), ?_, rfl⟩) hplace
  exact List.mem_of_getElem? (List.getElem?_zip_eq_some.mpr ⟨hk, ha⟩)

/-- A place to which no position is taken keeps its element. -/
theorem get?_write_moved_of_ne (h : ∀ index, List.Forall₂ (· < ·) index u.shape → f index ≠ o) :
    (t.write (u.moved f)).get? o = t.get? o := by
  refine get?_write_of_ne fun e he => ?_
  obtain ⟨s, hs, rfl⟩ := List.mem_map.mp he
  exact h s.1 (Index.lt_of_mem_all (List.of_mem_zip hs).1)

theorem foldlM_write {step : Tensor α → β → Outcome ε (Tensor α)} {entry : β → Index × α}
    {steps : List β}
    (hstep : ∀ s ∈ steps, ∀ u : Tensor α, u.shape = t.shape → step u s = .ok (u.write [entry s])) :
    steps.foldlM step t = .ok (t.write (steps.map entry)) := by
  induction steps generalizing t with
  | nil => rfl
  | cons s steps ih =>
    rw [List.forall_mem_cons] at hstep
    rw [List.foldlM_cons, hstep.1 t rfl, ok_bind, List.map_cons, write_cons]
    exact ih fun s hs u hu => hstep.2 s hs u (hu.trans (shape_write t _))

theorem foldlM_entries {step : Tensor α → Index × α → Outcome ε (Tensor α)}
    (hstep : ∀ e ∈ entries, ∀ u : Tensor α, u.shape = t.shape → step u e = .ok (u.write [e])) :
    entries.foldlM step t = .ok (t.write entries) := by
  have hwrites := foldlM_write hstep
  rwa [List.map_id''] at hwrites
  exact fun _ => rfl

end Tensor

theorem Index.box_point (index : Index) : box (index.map fun i => (i, i + 1)) = [index] := by
  induction index with
  | nil => rfl
  | cons i is ih =>
    rw [List.map_cons, box, ih, Nat.add_sub_cancel_left]
    rfl

/-- A box that spans one dimension, and has the coordinates of a position elsewhere. -/
theorem Index.box_line {index : Index} {dim : Nat} (h : dim < index.length) (size : Nat) :
    box ((index.map fun i => (i, i + 1)).set dim (0, size)) =
      (List.range size).map (index.set dim ·) := by
  induction index generalizing dim with
  | nil => cases h
  | cons i is ih =>
    cases dim with
    | zero =>
      rw [List.map_cons, List.set_cons_zero, box, box_point, List.range_eq_range',
        List.map_eq_flatMap]
      rfl
    | succ dim =>
      rw [List.map_cons, List.set_cons_succ, box, ih (Nat.lt_of_succ_lt_succ h),
        Nat.add_sub_cancel_left, List.range'_one, List.flatMap_cons, List.flatMap_nil,
        List.append_nil, List.map_map]
      rfl

theorem forall₂_filterMap {f : β → Option α} {bs : List β} (h : ∀ b ∈ bs, (f b).isSome) :
    List.Forall₂ (fun b a => f b = some a) bs (bs.filterMap f) := by
  induction bs with
  | nil => exact .nil
  | cons b bs ih =>
    rw [List.forall_mem_cons] at h
    obtain ⟨a, ha⟩ := Option.isSome_iff_exists.mp h.1
    rw [List.filterMap_cons_some ha]
    exact .cons ha (ih h.2)

/-- Positions along a line from a start, in a shape that is cut to one there. -/
theorem Index.set_lt {shape : Shape} {start : Index} {dim : Nat}
    (hstart : List.Forall₂ (· < ·) start (shape.set dim 1)) {i n : Nat} (hi : i < n) :
    List.Forall₂ (· < ·) (start.set dim i) (shape.set dim n) := by
  have h := Related.set hstart hi dim
  rwa [List.set_set] at h

/-- A start is inside along the dimension, and is the first position of its line. -/
theorem Index.set_zero_of_lt {shape : Shape} {start : Index} {dim : Nat} (hdim : dim < shape.length)
    (hstart : List.Forall₂ (· < ·) start (shape.set dim 1)) :
    dim < start.length ∧ start.set dim 0 = start := by
  have hlength := hstart.length_eq
  rw [List.length_set] at hlength
  have hlt : dim < start.length := hlength ▸ hdim
  obtain ⟨n, hn, hbelow⟩ := Related.get_left hstart (List.getElem?_eq_getElem hlt)
  rw [List.getElem?_set_self hdim, Option.some.injEq] at hn
  have hzero : start[dim] = 0 := by omega
  exact ⟨hlt, by rw [← hzero, List.set_getElem_self]⟩

theorem Index.set_injective {shape : Shape} {start other : Index} {dim i j : Nat}
    (hdim : dim < shape.length) (hstart : List.Forall₂ (· < ·) start (shape.set dim 1))
    (hother : List.Forall₂ (· < ·) other (shape.set dim 1))
    (h : start.set dim i = other.set dim j) :
    start = other ∧ i = j := by
  obtain ⟨hlt, hfirst⟩ := set_zero_of_lt hdim hstart
  obtain ⟨hlt', hfirst'⟩ := set_zero_of_lt hdim hother
  constructor
  · have hcut := congrArg (List.set · dim 0) h
    simpa only [List.set_set, hfirst, hfirst'] using hcut
  · have hread := congrArg (·[dim]?) h
    simpa only [List.getElem?_set_self hlt, List.getElem?_set_self hlt', Option.some.injEq]
      using hread

theorem Index.exists_start {index : Index} {shape : Shape} {dim size : Nat}
    (hindex : List.Forall₂ (· < ·) index shape) (hsize : shape[dim]? = some size) :
    ∃ start i, List.Forall₂ (· < ·) start (shape.set dim 1) ∧ i < size ∧
      index = start.set dim i := by
  obtain ⟨i, hi, hlt⟩ := Related.get_right hindex hsize
  obtain ⟨hdim, hread⟩ := List.getElem?_eq_some_iff.mp hi
  exact ⟨index.set dim 0, i, Related.set hindex Nat.one_pos dim, hlt, by simp [← hread]⟩

namespace Shape

variable {dim size : Nat}

theorem set_le (hsize : shape[dim]? = some size) {m : Nat} (hm : m ≤ size) :
    List.Forall₂ (· ≤ ·) (shape.set dim m) shape := by
  obtain ⟨hdim, rfl⟩ := List.getElem?_eq_some_iff.mp hsize
  have hsame : List.Forall₂ (· ≤ ·) shape shape := List.forall₂_same.mpr fun n _ => Nat.le_refl n
  have h := Related.set hsame hm dim
  rwa [List.set_getElem_self hdim] at h

/-- Only an axis of size zero leaves starts that cannot be counted. -/
theorem Counted.starts_iff (h : shape.Counted) (hsize : shape[dim]? = some size) :
    Counted (shape.set dim 1) ↔ (size = 0 → Counted (shape.set dim 1)) := by
  refine ⟨fun hstarts _ => hstarts, fun hstarts => ?_⟩
  by_cases hzero : size = 0
  · exact hstarts hzero
  · exact h.mono (set_le hsize (Nat.pos_of_ne_zero hzero))

end Shape

namespace Tensor

variable {t : Tensor α} {dim size : Nat} {start : Index}

theorem cutShape_singleton (shape : Shape) (dim : Nat) :
    cutShape shape [dim] = shape.set dim 1 := by
  refine List.ext_getElem? fun i => ?_
  rw [cutShape, List.getElem?_map, List.getElem?_zipIdx, List.getElem?_set]
  by_cases hi : dim = i <;> cases hread : shape[i]? <;> grind

theorem laneBox_singleton {shape : Shape} (hsize : shape[dim]? = some size)
    (hlength : start.length = shape.length) :
    laneBox shape [dim] start = (start.map fun i => (i, i + 1)).set dim (0, size) := by
  refine List.ext_getElem? fun i => ?_
  rw [laneBox, List.getElem?_map, List.getElem?_zipIdx, List.getElem?_set]
  grind

def lane (t : Tensor α) (dim size : Nat) (start : Index) : List α :=
  (List.range size).filterMap fun i => t.get? (start.set dim i)

theorem forall₂_lane (hsize : t.shape[dim]? = some size)
    (hstart : List.Forall₂ (· < ·) start (t.shape.set dim 1)) :
    List.Forall₂ (fun i a => t.get? (start.set dim i) = some a) (List.range size)
      (t.lane dim size start) := by
  refine forall₂_filterMap fun i hi => isSome_get?_iff.mpr ?_
  have hset := Index.set_lt hstart (List.mem_range.mp hi)
  obtain ⟨hdim, rfl⟩ := List.getElem?_eq_some_iff.mp hsize
  rwa [List.set_getElem_self hdim] at hset

theorem length_lane (hsize : t.shape[dim]? = some size)
    (hstart : List.Forall₂ (· < ·) start (t.shape.set dim 1)) :
    (t.lane dim size start).length = size := by
  rw [← (forall₂_lane hsize hstart).length_eq, List.length_range]

theorem getElem?_lane (hsize : t.shape[dim]? = some size)
    (hstart : List.Forall₂ (· < ·) start (t.shape.set dim 1)) {i : Nat} (hi : i < size) :
    (t.lane dim size start)[i]? = t.get? (start.set dim i) := by
  obtain ⟨a, ha, hread⟩ := Related.get_left (forall₂_lane hsize hstart) (List.getElem?_range hi)
  rw [ha, hread]

/-- Lanes are read in the order of their starts, if these can be counted. -/
theorem lanes_eq (hsize : t.shape[dim]? = some size) : (t.lanes [dim] : Outcome ε (List (List α))) =
    if Shape.Counted (t.shape.set dim 1) then
      .ok ((Index.all (t.shape.set dim 1)).map (t.lane dim size)) else .fault := by
  rw [lanes, cutShape_singleton, Layout.checkedAll_eq]
  split_ifs with hcounted
  · refine congrArg Outcome.ok (List.map_congr_left fun start hstart => ?_)
    have hlength := (Index.lt_of_mem_all hstart).length_eq
    rw [List.length_set] at hlength
    have hdim : dim < start.length := hlength ▸ (List.getElem?_eq_some_iff.mp hsize).1
    rw [laneBox_singleton hsize hlength, Index.box_line hdim, List.filterMap_map]
    rfl
  · rfl

end Tensor

end TensorGraph
