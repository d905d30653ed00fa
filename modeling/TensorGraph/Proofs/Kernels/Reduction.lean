import TensorGraph.Proofs.Kernels.Slicing
import TensorGraph.Proofs.Rules.Reduction

/-! Reductions of known integers: whole vectors and scalars are one lane. -/

namespace TensorGraph

open Outcome Kernel SymTensor

variable {ε α : Type} {names : Names} {sym : SymInputs} {inputs : ValueInputs}
  {outputs : List Value} {ts : List SymTensor}

theorem List.filterMap_range_getElem? (xs : List α) :
    (List.range xs.length).filterMap (fun i => xs[i]?) = xs := by
  have hmap : (List.range xs.length).map (fun i => xs[i]?) = xs.map some := by
    refine List.ext_getElem (by simp) fun i hi _ => ?_
    have hlt : i < xs.length := by simpa using hi
    simp [hlt]
  calc (List.range xs.length).filterMap (fun i => xs[i]?)
      = ((List.range xs.length).map fun i => xs[i]?).filterMap id := by
        rw [List.filterMap_map]
        rfl
    _ = (xs.map some).filterMap id := by rw [hmap]
    _ = xs := by simp

theorem Tensor.lanes_whole {x : Tensor α} {ls : List (List α)} (hrank : x.shape.length ≤ 1)
    (h : (x.lanes (List.range x.shape.length) : Outcome ε (List (List α))) = .ok ls) :
    ls = [x.data] := by
  obtain ⟨positions, hpositions, h⟩ := bind_eq_ok.mp h
  obtain rfl := Index.checkedAll_eq_ok hpositions
  cases h
  have hcount := x.length_data
  rcases Shape.nil_or_vector hrank with hshape | ⟨n, hshape⟩
  · obtain ⟨a, ha⟩ := List.length_eq_one_iff.mp (hcount.trans (by rw [hshape]; rfl))
    simp [hshape, cutShape, laneBox, Index.all_nil, Index.box, get?, offset?, Layout.inBounds,
      Layout.offset, ha]
  · have hn : x.data.length = n := by rw [hcount, hshape]; simp [Shape.volume]
    have hbox : Index.box [(0, n)] = (List.range n).map fun i => [i] := Index.all_vector n
    have hlane : (Index.box [(0, n)]).filterMap x.get? = x.data := by
      rw [hbox, List.filterMap_map, ← hn]
      refine Eq.trans (List.filterMap_congr fun i _ => ?_) (List.filterMap_range_getElem? x.data)
      exact get?_vector hshape i
    simp [hshape, cutShape, laneBox, Index.all_vector, hlane]

theorem SymTensor.Reads.ints? {s : SymTensor} {x : Tensor Int64} (h : Reads names s x)
    {ns : List Int64} (hns : s.ints? = some ns) : x.data = ns := by
  obtain ⟨es, he, hes⟩ := Option.bind_eq_some_iff.mp hns
  have hcovers := h.covers he
  rw [List.forall₂_map_right_iff] at hcovers
  have heq := Related.trans hcovers.flip (Option.mapM_eq_some.mp hes)
    (T := (· = ·)) fun n e m (hen : e.Covers names (.int n)) hm =>
      Option.some.inj (hen.int? m hm)
  exact List.forall₂_eq_eq_eq ▸ heq

theorem SymTensor.Sound.toInts {s : SymTensor} {v : Value} (h : Sound names s v)
    {ns ms : List Int64} (hns : v.toInts = .ok ns) (hms : s.ints? = some ms) : ms = ns := by
  obtain ⟨t, ht, hns⟩ := bind_eq_ok.mp hns
  obtain ⟨_, _, hns⟩ := bind_eq_ok.mp hns
  cases hns
  obtain rfl := Value.eq_int_of_cast ht
  have hreads : Reads names s t := Sound.reads h
  exact (hreads.ints? hms).symm

namespace Reduce

theorem get_joined {op : Reduce} {x : SymTensor} {axes : Axes} {s : SymShape} (i : Nat) :
    (op.joined x axes s).get i = .unknown ∨ i = 0 ∧ x.dtype = .int ∧ joinsAll x axes = true ∧
      ∃ ns, x.ints? = some ns ∧ (op.joined x axes s).get i = .int (op.reduction.onInts ns) := by
  unfold joined
  split_ifs with hfold
  · simp only [Bool.and_eq_true, decide_eq_true_eq] at hfold
    cases hns : x.ints? with
    | none => exact .inl (get_ofShape _ _ i)
    | some ns =>
      rcases get_set (.ofShape x.dtype s) 0 (.int (op.reduction.onInts ns)) i with hi | ⟨hi, hget⟩
      · exact .inl (hi.trans (get_ofShape _ _ i))
      · exact .inr ⟨hi, hfold.1.2, hfold.2, ns, rfl, hget⟩
  · exact .inl (get_ofShape _ _ i)

theorem selectAxes_run (op : Reduce) (h : List.Forall₂ (Option.Rel (Sound names)) sym inputs)
    {o : Option (List Int64)} (ho : inputs.findInts? 1 = .ok o) :
    op.selectAxes ((Inputs.find? sym 1).map (·.ints?)) = .unknown ∨
      op.selectAxes ((Inputs.find? sym 1).map (·.ints?)) = op.selectAxes (o.map some) := by
  have hi := Sound.findInts? h ho
  cases hs : Inputs.find? sym 1 with
  | none =>
    rw [hs] at hi
    cases hi
    exact .inr rfl
  | some s =>
    rw [hs] at hi
    cases hi with
    | some hv =>
      obtain ⟨v, hv, hns⟩ := hv
      cases hl : s.ints? with
      | none =>
        cases haxes : op.axes with
        | none => exact .inl (by simp [selectAxes, haxes, hl])
        | some axes => exact .inr (by simp [selectAxes, haxes])
      | some l => exact .inr (by simp [hl, hv.toInts hns hl])

theorem lists_kernel {op : Reduction} {s t : SymTensor} {x out : Value} {dims : List Nat}
    (hs : Sound names s x) (hget : ∀ i, t.get i = .unknown ∨ i = 0 ∧ s.dtype = .int ∧
      dims = List.range x.rank ∧ ∃ ns, s.ints? = some ns ∧ t.get i = .int (op.onInts ns)) :
    Kernel.Lists names [t] (kernel op x dims out) := by
  have hdtype := hs.describes.dtype
  refine lists_unless fun hsupports => ?_
  cases x <;> cases out
  case float.float x out =>
    refine lists_filled (always_bind fun ls _ => always_bind fun _ _ =>
      always_ok (SymTensor.lists_of_unknown fun i => ?_))
    rcases hget i with hi | ⟨-, hint, -⟩
    · exact hi
    · simp [hint, Value.dtype] at hdtype
  case int.int x out =>
    refine lists_filled (always_bind fun ls hls => always_bind fun _ _ => always_ok fun i c hc =>
      ?_)
    rcases hget i with hi | ⟨rfl, -, rfl, ns, hns, hi⟩
    · rw [hi]
      exact SymElement.covers_unknown c
    · obtain ⟨es, he, -⟩ := Option.bind_eq_some_iff.mp hns
      have hreads : Reads names s x := Sound.reads hs
      obtain rfl := Tensor.lanes_whole (hs.rank_le_one he) hls
      obtain ⟨n, hn, rfl⟩ := Tensor.getElem?_elements hc
      rw [Tensor.getElem?_overwrite] at hn
      split_ifs at hn with hlt hjoined
      · cases hn
        rw [hi, hreads.ints? hns]
        rfl
      · simp at hjoined
  all_goals exact lists_none

theorem range_of_joinsAll {x : SymTensor} {v : Value} {axes : List Int64} {dims : List Nat}
    (h : x.Describes names v) (hjoins : joinsAll x (.some axes) = true)
    (hdims : Axis.resolveAll v.rank axes = .ok dims) : dims = List.range v.rank := by
  simp only [joinsAll, Bool.and_eq_true, decide_eq_true_eq] at hjoins
  have hrank : v.rank = 1 := by
    have hv := h.shape.rank? 1 hjoins.1
    rw [SymShape.rank?_ofShape] at hv
    exact Option.some.inj hv
  obtain ⟨hlen, -, hlt⟩ := Axis.resolveAll_ok hdims
  obtain ⟨k, rfl⟩ := List.length_eq_one_iff.mp (hlen.trans hjoins.2)
  have hk := hlt k List.mem_cons_self
  rw [hrank] at hk ⊢
  rw [Nat.lt_one_iff.mp hk]
  rfl

theorem lists (op : Reduce) (h : List.Forall₂ (Option.Rel (Sound names)) sym inputs)
    (hts : op.infer sym = .ok ts) (ho : List.Forall₂ (Expects names) ts outputs) :
    PreparesLists names ts (op.prepare inputs outputs) := by
  rw [infer_eq] at hts
  obtain ⟨s, hs, hts⟩ := bind_eq_ok.mp hts
  refine always_bind fun x hx => ?_
  have hsx := Sound.demand h hs hx
  dsimp only at hts
  split_ifs at hts with hkeep
  · cases hts
    refine lists_single ho fun out hout => always_bind fun o ho' => ?_
    rcases selectAxes_run op h ho' with hunknown | hrun
    · simp [hkeep] at hunknown
    · rw [← hrun, hkeep]
      exact always_ok (lists_copy hsx hout fun i => .inr rfl)
  · obtain ⟨shape, -, hts⟩ := bind_eq_ok.mp hts
    cases hts
    refine lists_single ho fun out hout => always_bind fun o ho' => ?_
    have hrun := selectAxes_run op h ho'
    have hjoined := @get_joined op s
      (op.selectAxes ((Inputs.find? sym 1).map (·.ints?))) shape
    generalize op.selectAxes ((Inputs.find? sym 1).map (·.ints?)) = axes at hkeep hrun hjoined
    have hkernel : ∀ dims, (joinsAll s axes = true → dims = List.range x.rank) →
        Kernel.Lists names [op.joined s axes shape] (kernel op.reduction x dims out) :=
      fun dims hdims => lists_kernel hsx fun i => (hjoined i).imp id
        fun ⟨hi, hint, hall, hns⟩ => ⟨hi, hint, hdims hall, hns⟩
    generalize op.selectAxes (o.map some) = run at hrun ⊢
    cases run with
    | keep =>
      refine always_ok (Kernel.lists_of_unknown keepsTypes_copy rfl fun t ht i => ?_)
      obtain rfl := hrun.resolve_right hkeep
      rw [List.mem_singleton.mp ht]
      exact (hjoined i).resolve_right fun hi => by simp [joinsAll] at hi
    | all | unknown => exact always_ok (hkernel _ fun _ => rfl)
    | some axes' =>
      refine always_bind fun dims hdims => always_ok (hkernel dims fun hall => ?_)
      rcases hrun with rfl | rfl
      · simp [joinsAll] at hall
      · exact range_of_joinsAll hsx.describes hall (mapError_eq_ok.mp hdims)

end Reduce

end TensorGraph
