import Mathlib.Data.List.Sort
import TensorGraph.Proofs.Kernels.Operators
import TensorGraph.Proofs.Safety.Padding

/-! Pads that are listed for some axes. The axes are sorted before the pads are read, so that the
pads belong to the dimensions in increasing order, in whatever order the axes are listed. -/

namespace TensorGraph

open Outcome

theorem eraseDups_of_nodup {xs : List Nat} (h : xs.Nodup) : xs.eraseDups = xs := by
  induction xs with
  | nil => rfl
  | cons x xs ih =>
    obtain ⟨hx, hxs⟩ := List.nodup_cons.mp h
    have hall : ∀ b ∈ xs, (!b == x) = true := fun b hb => by
      simpa using fun heq : b = x => hx (heq ▸ hb)
    rw [List.eraseDups_cons, List.filter_eq_self.mpr hall, ih hxs]

namespace Axis

/-- Whether an axis denotes a dimension, from the first one on or back from the end. -/
def Denotes (rank : Nat) (axis : Int64) (k : Nat) : Prop :=
  k < rank ∧ (axis.toInt = k ∨ axis.toInt + rank = k)

instance (rank : Nat) (axis : Int64) (k : Nat) : Decidable (Denotes rank axis k) :=
  inferInstanceAs (Decidable (_ ∧ _))

variable {rank k : Nat} {axis : Int64} {axes : List Int64} {dims : List Nat}

theorem Denotes.resolve (h : Denotes rank axis k) (hrank : rank < intLimit) :
    resolve rank axis = .ok k := by
  have hlimit := intLimit_eq
  have htop := toInt_intOfSize hrank
  obtain ⟨hlt, hfirst | hlast⟩ := h
  · have hneg : ¬axis < 0 := by
      rw [Int64.lt_iff_toInt_lt, Int64.toInt_zero]
      omega
    have hover : ¬axis ≥ intOfSize rank := by
      rw [ge_iff_le, Int64.le_iff_toInt_le, htop]
      omega
    have hsize : sizeOfInt axis = k := by
      rw [sizeOfInt_of_nonneg (Int64.not_lt.mp hneg), hfirst, Int.toNat_natCast]
    simp [Axis.resolve, hneg, hover, hsize]
  · have hneg : axis < 0 := by
      rw [Int64.lt_iff_toInt_lt, Int64.toInt_zero]
      omega
    obtain ⟨n, hn, hread⟩ := exists_checkInt (ε := RuleError) (n := axis.toInt + rank)
      (by unfold FitsInt; omega)
    have hpos : ¬n < 0 := by
      rw [Int64.lt_iff_toInt_lt, Int64.toInt_zero]
      omega
    have hover : ¬n ≥ intOfSize rank := by
      rw [ge_iff_le, Int64.le_iff_toInt_le, htop]
      omega
    have hsize : sizeOfInt n = k := by
      rw [sizeOfInt_of_nonneg (Int64.not_lt.mp hpos), hread, hlast, Int.toNat_natCast]
    simp [Axis.resolve, hneg, htop, hn, hpos, hover, hsize]

/-- Axes of different dimensions are resolved to these in increasing order. -/
theorem resolveAll_eq_ok (h : List.Forall₂ (Denotes rank) axes dims) (hnodup : dims.Nodup)
    (hrank : rank < intLimit) : resolveAll rank axes = .ok dims.mergeSort := by
  have hdims : axes.mapM (resolve rank) = .ok dims :=
    mapM_eq_ok.mpr (h.imp fun _ _ hdenotes => hdenotes.resolve hrank)
  have hsorted : dims.mergeSort.Nodup := (List.mergeSort_perm dims _).nodup_iff.mpr hnodup
  rw [resolveAll, hdims, ok_bind]
  dsimp only
  rw [refuseIf_neg (by rw [eraseDups_of_nodup hsorted, not_not])]
  rfl

end Axis

namespace Pad

section Spread

variable {α β ε : Type} {pads acc : List α} {zero : α} {dims : List Nat} {rank n k p : Nat}

/-- The pads on one side of all dimensions, where those of `dims` are listed in order after the
`first` ones, and the others are zero. -/
def side (zero : α) (pads : List α) (dims : List Nat) (rank first : Nat) : List α :=
  (List.range rank).map fun d => if d ∈ dims then pads.getD (first + dims.idxOf d) zero else zero

/-- The pads of all dimensions, the starts and then the ends, each pad along its own dimension. -/
def spread (zero : α) (pads : List α) (dims : List Nat) (rank : Nat) : List α :=
  side zero pads dims rank 0 ++ side zero pads dims rank dims.length

theorem map_spread (f : α → β) (pads : List α) (dims : List Nat) (rank : Nat) :
    (spread zero pads dims rank).map f = spread (f zero) (pads.map f) dims rank := by
  have hside : ∀ first, (side zero pads dims rank first).map f =
      side (f zero) (pads.map f) dims rank first := fun first => by
    rw [side, side, List.map_map]
    refine List.map_congr_left fun d _ => ?_
    rw [Function.comp_apply, apply_ite f, List.getD_eq_getElem?_getD, List.getD_eq_getElem?_getD,
      List.getElem?_map, Option.getD_map]
  rw [spread, spread, List.map_append, hside, hside]

theorem getElem?_side (hp : p < rank) (hpads : n + dims.length ≤ pads.length) :
    (side zero pads dims rank n)[p]? = if p ∈ dims then pads[n + dims.idxOf p]? else some zero := by
  rw [side, List.getElem?_map, List.getElem?_range hp, Option.map_some]
  split_ifs with hmem
  · have hlt := List.idxOf_lt_length_of_mem hmem
    rw [List.getD_eq_getElem?_getD, List.getElem?_eq_getElem (by omega), Option.getD_some]
  · rfl

theorem exists_foldlM_set (hacc : acc.length = rank * 2) (hlt : ∀ d ∈ dims, d < rank)
    (hnodup : dims.Nodup) (hpads : n + k + dims.length ≤ pads.length) :
    ∃ full, ((dims.zipIdx k).foldlM (fun full (dim, i) => do
        let start ← .ofOption pads[i]?
        let stop ← .ofOption pads[n + i]?
        return (full.set dim start).set (rank + dim) stop) acc : Outcome ε (List α)) = .ok full ∧
      full.length = rank * 2 ∧ ∀ p < rank,
        (full[p]? = if p ∈ dims then pads[k + dims.idxOf p]? else acc[p]?) ∧
          (full[rank + p]? = if p ∈ dims then pads[n + k + dims.idxOf p]? else acc[rank + p]?) := by
  induction dims generalizing k acc with
  | nil => exact ⟨acc, rfl, hacc, fun p _ => by simp⟩
  | cons d ds ih =>
    rw [List.forall_mem_cons] at hlt
    rw [List.nodup_cons] at hnodup
    rw [List.length_cons] at hpads
    have hstart := List.getElem?_eq_getElem (l := pads) (i := k) (by omega)
    have hstop := List.getElem?_eq_getElem (l := pads) (i := n + k) (by omega)
    have hset : ((acc.set d pads[k]).set (rank + d) pads[n + k]).length = rank * 2 := by
      simpa using hacc
    obtain ⟨full, hfull, hlen, hget⟩ := ih (k := k + 1) hset hlt.2 hnodup.2 (by omega)
    refine ⟨full, ?_, hlen, fun p hp => ?_⟩
    · rw [List.zipIdx_cons, List.foldlM_cons]
      dsimp only
      rw [hstart, hstop]
      exact hfull
    · obtain ⟨hfirst, hsecond⟩ := hget p hp
      -- the dimensions after `d` leave its own pads as they are set here
      by_cases hpd : p = d
      · subst hpd
        rw [if_neg hnodup.1] at hfirst hsecond
        rw [if_pos List.mem_cons_self, if_pos List.mem_cons_self, List.idxOf_cons_self,
          Nat.add_zero, Nat.add_zero, hfirst, hsecond, hstart, hstop]
        rw [List.getElem?_set_ne (by omega), List.getElem?_set_self (by omega),
          List.getElem?_set_self (by rw [List.length_set]; omega)]
        exact ⟨rfl, rfl⟩
      · have hmem : p ∈ d :: ds ↔ p ∈ ds := by simp [hpd]
        rw [hfirst, hsecond, List.idxOf_cons_ne _ (Ne.symm hpd), List.getElem?_set_ne (by omega),
          List.getElem?_set_ne (by omega), List.getElem?_set_ne (by omega),
          List.getElem?_set_ne (by omega)]
        simp only [hmem, Nat.add_assoc, Nat.add_comm 1, Nat.succ_eq_add_one, and_self]

theorem expand_eq_ok (hlt : ∀ d ∈ dims, d < rank) (hnodup : dims.Nodup)
    (hpads : pads.length = dims.length * 2) :
    (expand pads dims rank zero : Outcome ε (List α)) = .ok (spread zero pads dims rank) := by
  have hzeros : (List.replicate (rank * 2) zero).length = rank * 2 := List.length_replicate
  have henough : dims.length + 0 + dims.length ≤ pads.length := by omega
  obtain ⟨full, hfull, hlen, hget⟩ := exists_foldlM_set (ε := ε) hzeros hlt hnodup henough
  rw [expand, hfull, Outcome.ok.injEq]
  have hside : ∀ first, (side zero pads dims rank first).length = rank :=
    fun first => by simp [side]
  refine List.ext_getElem? fun p => ?_
  rw [spread, List.getElem?_append, hside]
  split_ifs with hp
  · rw [(hget p hp).1, getElem?_side hp (by omega), List.getElem?_replicate_of_lt (by omega)]
  · by_cases hp' : p - rank < rank
    · have hget := (hget _ hp').2
      rw [Nat.add_sub_cancel' (Nat.not_lt.mp hp)] at hget
      rw [hget, getElem?_side hp' (by omega), List.getElem?_replicate_of_lt (by omega),
        Nat.add_zero]
    · rw [List.getElem?_eq_none (by omega), List.getElem?_eq_none (by rw [hside]; omega)]

end Spread

section Inputs

variable {op : Pad} {inputs : ValueInputs} {x : Value} {ps : List Int64} {ds : List Nat}
  {t : Tensor Int64}

theorem infer_of_find? (hx : Inputs.find? inputs 0 = some x)
    (hpads : Inputs.find? inputs 1 = some (.int (.ofList ps))) :
    (Operator.pad op).infer (inputs.zipIdx.map (Operator.pad op).describeInput) = (do
      .refuseIf ((Inputs.find? inputs 2).any (·.dtype ≠ x.dtype)) (.type .padValue)
      op.result ((Operator.pad op).told 0 x)
        ((Inputs.find? inputs 3).map ((Operator.pad op).told 3)) (some (ps.map .int))) := by
  have hint : ¬((Operator.pad op).told 1 (.int (.ofList ps))).dtype ≠ .int := by
    rw [Operator.dtype_told]
    exact not_not.mpr rfl
  have hrank : (((Operator.pad op).told 1 (.int (.ofList ps))).shape.declareRank 1 :
      Outcome RuleError SymShape) = .ok (.ofShape [ps.length]) := by
    rw [Operator.shape_told]
    rfl
  have helements : ((Operator.pad op).told 1 (.int (.ofList ps))).elements = some (ps.map .int) :=
    Operator.elements_told rfl (Nat.le_refl 1)
  have hvalue : ((Inputs.find? inputs 2).map ((Operator.pad op).told 2)).any
        (·.dtype ≠ ((Operator.pad op).told 0 x).dtype) =
      (Inputs.find? inputs 2).any (·.dtype ≠ x.dtype) := by
    rw [Operator.dtype_told, Option.any_map]
    simp only [Operator.dtype_told]
  simp only [Operator.infer, infer_eq, Operator.demand_told _ hx, Operator.demand_told _ hpads,
    ok_bind, refuseIf_neg hint, hrank, helements, Operator.find?_told, hvalue]

/-- With axes that are resolved, the rule gives what it gives for the pads of all dimensions. -/
theorem result_axes (ht : t.shape.length ≤ 1) (hdims : Axis.resolveAll x.rank t.data = .ok ds)
    (hpads : ps.length = ds.length * 2) :
    op.result ((Operator.pad op).told 0 x) (some ((Operator.pad op).told 3 (.int t)))
      (some (ps.map .int)) =
      op.result ((Operator.pad op).told 0 x) none (some ((spread 0 ps ds x.rank).map .int)) := by
  obtain ⟨-, hnodup, hlt⟩ := Axis.resolveAll_ok hdims
  have hints : ∀ ms : List Int64, (ms.map SymElement.int).map (·.int?) = ms.map some := fun ms => by
    rw [List.map_map]
    rfl
  have hrank : ((Operator.pad op).told 0 x).rank? = some x.rank := by
    rw [SymTensor.rank?, Operator.shape_told, SymShape.ofShape, SymShape.rank?_ranked,
      List.length_map]
    rfl
  have hall : allPads (some x.rank) (ps.map some) (some ((Operator.pad op).told 3 (.int t))) =
      .ok (some ((spread 0 ps ds x.rank).map some)) := by
    have hcount : ¬(ps.map some).length ≠ ds.length * 2 := by
      rw [List.length_map, not_not]
      exact hpads
    have hexpand :
        (expand (ps.map some) ds x.rank (some 0) : Outcome RuleError (List (Option Int64))) =
        .ok (spread (some 0) (ps.map some) ds x.rank) := expand_eq_ok hlt hnodup (not_not.mp hcount)
    simp only [allPads, ints?_told ht, hdims, ok_bind, refuseIf_neg hcount, hexpand, map_spread,
      pure_eq]
  simp only [result, hints, hrank, hall]
  rfl

/-- The kernel reads the pads of all dimensions, where the axes are resolved. -/
theorem pads_eq_ok {rank : Nat} (ht : t.shape.length ≤ 1)
    (hdims : Axis.resolveAll rank t.data = .ok ds) (hlen : ps.length = ds.length * 2)
    (hpads : Inputs.find? inputs 1 = some (.int (.ofList ps)))
    (haxes : Inputs.find? inputs 3 = some (.int t)) :
    pads rank inputs = .ok (spread 0 ps ds rank) := by
  obtain ⟨-, hnodup, hlt⟩ := Axis.resolveAll_ok hdims
  have hdemand : inputs.demandInts 1 = .ok ps := by
    rw [ValueInputs.demandInts, ValueInputs.findInts?_vector hpads (Nat.le_refl 1)]
    rfl
  rw [pads, hdemand, ok_bind, ValueInputs.findInts?_vector haxes ht, ok_bind]
  dsimp only
  rw [hdims]
  exact expand_eq_ok hlt hnodup hlen

theorem pads_of_no_axes {rank : Nat} (hpads : Inputs.find? inputs 1 = some (.int (.ofList ps)))
    (haxes : Inputs.find? inputs 3 = none) : pads rank inputs = .ok ps := by
  have hdemand : inputs.demandInts 1 = .ok ps := by
    rw [ValueInputs.demandInts, ValueInputs.findInts?_vector hpads (Nat.le_refl 1)]
    rfl
  rw [pads, hdemand, ok_bind, ValueInputs.findInts?, haxes]
  rfl

end Inputs

end Pad

namespace Pad

variable {x : Value} {ps axes : List Int64} {dims : List Nat}

theorem apply_resolved (chain : Chain) (op : Pad) (value : Option Value)
    (hdims : Axis.resolveAll x.rank axes = .ok dims) (hlen : ps.length = dims.length * 2) :
    chain.apply (.pad op) [some x, some (.int (.ofList ps)), value, some (.int (.ofList axes))] =
      chain.apply (.pad op) [some x, some (.int (.ofList (spread 0 ps dims x.rank))), value] := by
  refine Chain.apply_congr ?_ (fun outputs _ => ?_) chain
  · have hinfer : (Operator.pad op).infer
          ([some x, some (.int (.ofList ps)), value, some (.int (.ofList axes))].zipIdx.map
            (Operator.pad op).describeInput) =
        (Operator.pad op).infer
          ([some x, some (.int (.ofList (spread 0 ps dims x.rank))), value].zipIdx.map
            (Operator.pad op).describeInput) := by
      rw [infer_of_find? rfl rfl, infer_of_find? rfl rfl]
      exact bind_congr fun _ => result_axes (t := .ofList axes) (Nat.le_refl 1) hdims hlen
    have htypes : ∀ inputs,
        (Operator.pad op).outputTypes inputs = (Operator.pad op).inferredTypes inputs :=
          fun _ => rfl
    rw [Operator.checkedTypes, Operator.checkedTypes, htypes, htypes, Operator.inferredTypes,
      Operator.inferredTypes, hinfer]
    rfl
  · have hpads : pads x.rank [some x, some (.int (.ofList ps)), value, some (.int (.ofList axes))] =
        .ok (spread 0 ps dims x.rank) :=
          pads_eq_ok (t := .ofList axes) (Nat.le_refl 1) hdims hlen rfl rfl
    have hfull : pads x.rank [some x, some (.int (.ofList (spread 0 ps dims x.rank))), value] =
        .ok (spread 0 ps dims x.rank) := pads_of_no_axes rfl rfl
    simp only [Operator.call, Operator.prepare, Operator.resolve, prepare, resolve,
      ValueInputs.demand, Inputs.find?, List.getElem?_cons_zero, List.getElem?_cons_succ,
      Option.join_some, orRefuse, ok_bind, hpads, hfull]

/-- Pads that are listed for axes of different dimensions are the pads of all dimensions that
belong to the axes in increasing order. Along its own axis each of them lies if the axes are listed
in this order. -/
theorem apply_axes (chain : Chain) (op : Pad) (value : Option Value) (hx : x.Representable)
    (haxes : List.Forall₂ (Axis.Denotes x.rank) axes dims) (hnodup : dims.Nodup)
    (hlen : ps.length = axes.length * 2) :
    chain.apply (.pad op) [some x, some (.int (.ofList ps)), value, some (.int (.ofList axes))] =
        chain.apply (.pad op) [some x, some (.int (.ofList (spread 0 ps dims.mergeSort x.rank))),
        value] ∧
      (dims.Pairwise (· < ·) →
        chain.apply (.pad op) [some x, some (.int (.ofList ps)), value,
        some (.int (.ofList axes))] =
          chain.apply (.pad op) [some x, some (.int (.ofList (spread 0 ps dims x.rank))),
          value]) := by
  have hlimit := intLimit_eq
  have hrank : x.rank < intLimit := by
    have hroom := hx.rank
    unfold Shape.entryBytes byteLimit at hroom
    unfold Value.rank
    omega
  have hresolved := Axis.resolveAll_eq_ok haxes hnodup hrank
  have hlen' : ps.length = dims.mergeSort.length * 2 := by
    rw [List.length_mergeSort, ← haxes.length_eq]
    exact hlen
  have hall := apply_resolved chain op value hresolved hlen'
  refine ⟨hall, fun hincreasing => ?_⟩
  have hsorted : dims.mergeSort = dims :=
    List.mergeSort_eq_self (· ≤ ·) (hincreasing.imp fun hlt => hlt.le)
  rw [hall, hsorted]

theorem apply_axes_increasing :
    Chain.reference.apply (.pad ⟨.constant⟩)
        [some (.int ⟨[1, 1], [7], rfl⟩), some (.int (.ofList [1, 0, 0, 1])), none,
          some (.int (.ofList [0, -1]))] =
      .ok [.int ⟨[2, 2], [0, 0, 7, 0], rfl⟩] := by
  have hx : (Value.int ⟨[1, 1], [7], rfl⟩).Representable := by decide
  have haxes : List.Forall₂ (Axis.Denotes 2) [0, -1] [0, 1] :=
    .cons (by decide) (.cons (by decide) .nil)
  rw [(apply_axes Chain.reference ⟨.constant⟩ none hx haxes (by decide) (by decide)).2 (by decide)]
  decide

/-- A pad of the second axis in a list that is not increasing comes along the first dimension. -/
theorem apply_axes_decreasing :
    Chain.reference.apply (.pad ⟨.constant⟩)
        [some (.int ⟨[1, 1], [7], rfl⟩), some (.int (.ofList [1, 0, 0, 0])), none,
          some (.int (.ofList [1, 0]))] = .ok [.int ⟨[2, 1], [0, 7], rfl⟩] ∧
      Chain.reference.apply (.pad ⟨.constant⟩)
        [some (.int ⟨[1, 1], [7], rfl⟩), some (.int (.ofList (spread 0 [1, 0, 0, 0] [1, 0] 2))),
        none] =
          .ok [.int ⟨[1, 2], [0, 7], rfl⟩] := by
  have haxes : List.Forall₂ (Axis.Denotes 2) [1, 0] [1, 0] :=
    .cons (by decide) (.cons (by decide) .nil)
  have hresolved : Axis.resolveAll 2 [1, 0] = .ok [0, 1] := by
    rw [Axis.resolveAll_eq_ok haxes (by decide) (by decide)]
    simp [List.mergeSort]
  constructor
  · rw [apply_resolved (x := .int ⟨[1, 1], [7], rfl⟩) Chain.reference ⟨.constant⟩ none hresolved
      (by decide)]
    decide
  · decide

end Pad

end TensorGraph
