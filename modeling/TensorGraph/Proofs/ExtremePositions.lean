import TensorGraph.Proofs.ReducedShapes
import TensorGraph.Proofs.RunningSums
import TensorGraph.Proofs.Spreading

/-! Positions of extreme elements. The scan of a lane keeps the position of the most extreme
element so far, and replaces it by an equal one just if the last one is wanted. -/

namespace TensorGraph

open Outcome

namespace ArgReduce

variable {op : ArgReduce}

section Scanning

variable {lane : List Int64} {p q : Nat} {a b : Int64}

def AtMost (op : ArgReduce) (b a : Int64) : Prop :=
  (op.extremum = .max → b ≤ a) ∧ (op.extremum = .min → a ≤ b)

structure Extreme (op : ArgReduce) (lane : List Int64) (p : Nat) (a : Int64) : Prop where
  read : lane[p]? = some a
  bound : ∀ b ∈ lane, op.AtMost b a
  first : op.takeLast = false → ∀ j, lane[j]? = some a → p ≤ j
  last : op.takeLast = true → ∀ j, lane[j]? = some a → j ≤ p

theorem better_iff : op.better a b = true ↔ ¬op.AtMost a b ∨ op.takeLast = true ∧ a = b := by
  have hstrict : (if op.extremum = .max then Element.less b a else Element.less a b) = true ↔
      ¬op.AtMost a b := by
    have hless : ∀ c d : Int64, Element.less c d = true ↔ c < d := fun _ _ => decide_eq_true_iff
    cases hext : op.extremum <;> simp [AtMost, hext, hless, Int64.not_le]
  have hsame : Element.same a b = true ↔ a = b := beq_iff_eq
  have hbetter : op.better a b =
      ((if op.extremum = .max then Element.less b a else Element.less a b) ||
        (op.takeLast && Element.same a b)) := by
    rw [better]
    cases op.extremum <;> rfl
  rw [hbetter, Bool.or_eq_true, Bool.and_eq_true, hstrict, hsame]

theorem AtMost.refl (op : ArgReduce) (a : Int64) : op.AtMost a a :=
  ⟨fun _ => Int64.le_refl a, fun _ => Int64.le_refl a⟩

theorem AtMost.trans {c : Int64} (h : op.AtMost a b) (h' : op.AtMost b c) : op.AtMost a c :=
  ⟨fun hext => Int64.le_trans (h.1 hext) (h'.1 hext), fun hext =>
    Int64.le_trans (h'.2 hext) (h.2 hext)⟩

theorem AtMost.total (op : ArgReduce) (a b : Int64) : op.AtMost a b ∨ op.AtMost b a := by
  rcases Int64.le_total a b with h | h <;> cases hext : op.extremum <;> simp [AtMost, hext, h]

/-- An element that replaces the best one is itself extreme among those up to it. -/
theorem Extreme.replaced (h : op.Extreme lane p a) (hb : op.better b a = true) :
    op.Extreme (lane ++ [b]) lane.length b := by
  have hbest : op.AtMost a b := by
    rcases better_iff.mp hb with hbeyond | ⟨-, rfl⟩
    · exact (AtMost.total op a b).resolve_right hbeyond
    · exact AtMost.refl op b
  refine ⟨by simp, fun c hc => ?_, fun hfirst j hj => ?_, fun _ j hj => ?_⟩
  · rcases List.mem_append.mp hc with hc | hc
    · exact (h.bound c hc).trans hbest
    · rw [List.mem_singleton.mp hc]
      exact AtMost.refl op b
  · by_contra hlt
    rw [List.getElem?_append_left (not_le.mp hlt)] at hj
    have hbeyond : ¬op.AtMost b a :=
      (better_iff.mp hb).resolve_right fun hlast => by simp [hfirst] at hlast
    exact hbeyond (h.bound b (List.mem_of_getElem? hj))
  · have hlt := (List.getElem?_eq_some_iff.mp hj).1
    rw [List.length_append, List.length_singleton] at hlt
    exact Nat.le_of_lt_succ hlt

/-- The best element stays extreme where the next one does not replace it. -/
theorem Extreme.kept (h : op.Extreme lane p a) (hb : ¬op.better b a = true) :
    op.Extreme (lane ++ [b]) p a := by
  have hp := (List.getElem?_eq_some_iff.mp h.read).1
  have hstays : op.AtMost b a ∧ ¬(op.takeLast = true ∧ b = a) := by
    rw [better_iff, not_or, not_not] at hb
    exact hb
  have hnext : ∀ j, (lane ++ [b])[j]? = some a → lane[j]? = some a ∨ j = lane.length ∧ b = a := by
    intro j hj
    by_cases hlt : j < lane.length
    · exact .inl (by rwa [List.getElem?_append_left hlt] at hj)
    · have hend := (List.getElem?_eq_some_iff.mp hj).1
      rw [List.length_append, List.length_singleton] at hend
      obtain rfl : j = lane.length := by omega
      exact .inr ⟨rfl, by simpa using hj⟩
  refine ⟨(List.getElem?_append_left hp).trans h.read, fun c hc => ?_, fun hfirst j hj =>
    ?_, fun hlast j hj => ?_⟩
  · rcases List.mem_append.mp hc with hc | hc
    · exact h.bound c hc
    · rw [List.mem_singleton.mp hc]
      exact hstays.1
  · rcases hnext j hj with hj | ⟨rfl, -⟩
    · exact h.first hfirst j hj
    · exact hp.le
  · rcases hnext j hj with hj | ⟨-, rfl⟩
    · exact h.last hlast j hj
    · exact absurd ⟨hlast, rfl⟩ hstays.2

/-- The best entry after one more, which is the first one or replaces the best if it is better. -/
def keepBest (op : ArgReduce) (best : Option (Int64 × Nat)) (entry : Int64 × Nat) :
    Option (Int64 × Nat) :=
  best.elim (some entry) fun b => if op.better entry.1 b.1 then some entry else some b

theorem bestPosition_eq (op : ArgReduce) (lane : List Int64) :
    op.bestPosition lane = (lane.zipIdx.foldl op.keepBest none).elim 0 Prod.snd := by
  refine congrArg (fun best : Option (Int64 × Nat) => best.elim 0 Prod.snd) ?_
  refine List.foldl_ext _ _ none fun best entry _ => ?_
  cases best <;> rfl

theorem exists_extreme (op : ArgReduce) (hlane : lane ≠ []) :
    ∃ a p, lane.zipIdx.foldl op.keepBest none = some (a, p) ∧ op.Extreme lane p a := by
  induction lane using List.reverseRecOn with
  | nil => exact absurd rfl hlane
  | append_singleton lane b ih =>
    rw [List.zipIdx_append, List.foldl_append, Nat.zero_add, List.zipIdx_singleton, List.foldl_cons,
      List.foldl_nil]
    by_cases hempty : lane = []
    · subst hempty
      refine ⟨b, 0, rfl, rfl, fun c hc => ?_, fun _ j _ => Nat.zero_le j, fun _ j hj => ?_⟩
      · rw [List.mem_singleton.mp hc]
        exact AtMost.refl op b
      · exact Nat.le_of_lt_succ (List.getElem?_eq_some_iff.mp hj).1
    · obtain ⟨a, p, hfold, h⟩ := ih hempty
      rw [hfold]
      by_cases hb : op.better b a = true
      · exact ⟨b, lane.length, if_pos hb, h.replaced hb⟩
      · exact ⟨a, p, if_neg hb, h.kept hb⟩

theorem extreme_bestPosition (op : ArgReduce) (hlane : lane ≠ []) :
    ∃ a, op.Extreme lane (op.bestPosition lane) a := by
  obtain ⟨a, p, hfold, h⟩ := exists_extreme op hlane
  have hposition : op.bestPosition lane = p := by rw [bestPosition_eq, hfold, Option.elim_some]
  exact ⟨a, hposition ▸ h⟩

end Scanning

end ArgReduce

namespace Tensor

variable {α : Type} {x : Tensor α} {dim size : Nat} {start : Index}

theorem laneAt_singleton (hsize : x.shape[dim]? = some size)
    (hstart : List.Forall₂ (· < ·) start (x.shape.set dim 1)) :
    x.laneAt [dim] start = x.lane dim size start := by
  have hlength := hstart.length_eq
  rw [List.length_set] at hlength
  have hdim : dim < start.length := hlength ▸ (List.getElem?_eq_some_iff.mp hsize).1
  rw [laneAt, laneBox_singleton hsize hlength, Index.box_line hdim, List.filterMap_map]
  rfl

theorem reducedShape_singleton (shape : Shape) (dim : Nat) (keep : Bool) :
    reducedShape shape [dim] keep = if keep then shape.set dim 1 else shape.eraseIdx dim := by
  have hdrop := dropFrom_singleton dim 0 shape
  rw [Nat.zero_add] at hdrop
  rw [reducedShape, dropFrom_cutShape, cutShape_singleton, hdrop]

theorem reducedIndex_singleton (dim : Nat) (keep : Bool) (index : Index) :
    reducedIndex [dim] keep index = if keep then index else index.eraseIdx dim := by
  have hdrop := dropFrom_singleton dim 0 index
  rw [Nat.zero_add] at hdrop
  rw [reducedIndex, hdrop]

end Tensor

theorem Axis.resolveAll_singleton {rank dim : Nat} {axis : Int64}
    (h : resolve rank axis = .ok dim) :
    resolveAll rank [axis] = .ok [dim] := by
  simp [resolveAll, h, refuseIf, List.eraseDups_cons]

namespace ArgReduce

variable {op : ArgReduce} {x y : Tensor Int64} {dim size : Nat}

/-- At the position of each lane stands the position of its extreme element. -/
structure Locates (op : ArgReduce) (x : Tensor Int64) (dim size : Nat) (y : Tensor Int64) : Prop
  where
  shape_eq : y.shape = if op.keepDims then x.shape.set dim 1 else x.shape.eraseIdx dim
  position : ∀ start, List.Forall₂ (· < ·) start (x.shape.set dim 1) →
    ∃ (n : Int64) (p : Nat) (a : Int64),
      y.get? (if op.keepDims then start else start.eraseIdx dim) = some n ∧ n.toInt = p ∧
      op.Extreme (x.lane dim size start) p a

/-- Lanes of a tensor in memory are so short that signed 64-bit integers hold their positions. -/
theorem size_lt (hx : (Value.int x).Held) (hsize : x.shape[dim]? = some size) {start : Index}
    (hstart : List.Forall₂ (· < ·) start (x.shape.set dim 1)) : size < intLimit := by
  by_cases hzero : size = 0
  · rw [hzero]
    decide
  · have hinside := Index.set_lt_shape hsize hstart (Nat.pos_of_ne_zero hzero)
    have hvolume := Shape.le_volume_of_lt hinside (List.mem_of_getElem? hsize)
    have hroom : x.shape.volume * 8 < byteLimit := (Value.int x).count_eq_volume ▸ hx.room
    have hlimit : byteLimit ≤ intLimit := by decide
    omega

theorem locates_joined (hx : (Value.int x).Held) (hsize : x.shape[dim]? = some size)
    (hpos : 0 < size) :
    op.Locates x dim size
      (x.joined (fun lane => intOfSize (op.bestPosition lane)) [dim] op.keepDims) := by
  refine ⟨Tensor.reducedShape_singleton _ _ _, fun start hstart => ?_⟩
  have hlength := Tensor.length_lane hsize hstart
  have hlane : x.lane dim size start ≠ [] := List.ne_nil_of_length_pos (hlength.symm ▸ hpos)
  obtain ⟨a, h⟩ := extreme_bestPosition op hlane
  have hlt := (List.getElem?_eq_some_iff.mp h.read).1
  rw [hlength] at hlt
  have hread := x.get?_joined (fun lane => intOfSize (op.bestPosition lane)) [dim] op.keepDims
    (Tensor.cutShape_singleton x.shape dim ▸ hstart)
  rw [Tensor.reducedIndex_singleton, Tensor.laneAt_singleton hsize hstart] at hread
  exact ⟨_, _, a, hread, toInt_intOfSize (hlt.trans (size_lt hx hsize hstart)), h⟩

theorem infer_eq_ok (hx : (Value.int x).Held) (hdim : Axis.resolve x.shape.length op.axis = .ok dim)
    (hsize : x.shape[dim]? = some size) (hpos : 0 < size) :
    (Operator.argReduce op).infer
      ([some (.int x)].zipIdx.map (Operator.argReduce op).describeInput) =
      .ok [.ofShape .int (.ofShape (Tensor.reducedShape x.shape [dim] op.keepDims))] := by
  have hshape : ((Operator.argReduce op).told 0 (.int x)).shape = .ofShape x.shape :=
    Operator.shape_told ..
  have hlt := (List.getElem?_eq_some_iff.mp hsize).1
  have hlength : ((Operator.argReduce op).told 0 (.int x)).rank? = some x.shape.length := by
    rw [SymTensor.rank?, hshape]
    simp [SymShape.ofShape]
  have hnonempty : (SymShape.ofShape x.shape).dim dim ≠ .size 0 := by
    have hread : (SymShape.ofShape x.shape).dim dim = .ofSize size := by
      rw [SymShape.dim, SymShape.ofShape, SymShape.dims, SymShape.dims?, Option.getD_some,
        ConvTranspose.getD_map_ofSize hlt, List.getD_eq_getElem?_getD, hsize, Option.getD_some]
    rw [hread]
    intro hzero
    exact hpos.ne' (intOfSize_inj (hx.sizes size (List.mem_of_getElem? hsize)) (by decide)
      (SymDim.size.inj hzero))
  have helements : op.demandElements ((Operator.argReduce op).told 0 (.int x)) = .ok () := by
    simp only [demandElements, hlength, hshape, hdim, ok_bind]
    exact refuseIf_neg hnonempty
  have hselects : Axis.Selects x.shape.length [dim] (some [op.axis]) :=
    Axis.resolveAll_singleton hdim
  rw [Operator.infer, infer_eq, Operator.demand_told _ rfl, ok_bind, helements, ok_bind, hshape,
    SymShape.reduce_ofShape op.keepDims hselects]
  rfl

theorem apply_locates (op : ArgReduce) (hx : (Value.int x).Held)
    (hdim : Axis.resolve x.shape.length op.axis = .ok dim) (hsize : x.shape[dim]? = some size)
    (hpos : 0 < size) :
    ((∃ vs, Chain.reference.apply (.argReduce op) [some (.int x)] = .ok vs) ↔
      ∀ n ∈ x.shape.set dim 1, n < intLimit) ∧
    ∀ vs, Chain.reference.apply (.argReduce op) [some (.int x)] = .ok vs → ∃ y, vs = [.int y] ∧
      op.Locates x dim size y := by
  have hrun : ∀ z : Tensor Int64, z.shape = Tensor.reducedShape x.shape [dim] op.keepDims →
      ((Operator.argReduce op).prepare .none [some (.int x)] [.int z] >>= fun run => run ()) =
        (x.lanes [dim] >>= fun ls =>
          .ok (z.overwrite (ls.map fun lane => intOfSize (op.bestPosition lane)))) >>=
          Kernel.filled := by
    intro z _
    have hdemand : ValueInputs.demand [some (.int x)] 0 = .ok (.int x) := rfl
    have hresolved : Axis.resolve (Value.int x).rank op.axis = .ok dim := hdim
    rw [Operator.prepare, prepare, hdemand, ok_bind, hresolved]
    rfl
  have happly :=
    @Chain.apply_joined_iff Int64 [dim] (.argReduce op) [some (.int x)] x _ _ op.keepDims hx.sizes
      hx.rank
    rfl rfl rfl (infer_eq_ok hx hdim hsize hpos) rfl (SymTensor.shape_ofShape _ _) hrun
  obtain ⟨hcounted, hroom⟩ := hx.fits_of_le (Shape.set_le hsize hpos)
  simp only [happly, Tensor.cutShape_singleton]
  refine ⟨⟨?_, fun hsizes => ⟨_, hsizes, hcounted, hroom, rfl⟩⟩, ?_⟩
  · rintro ⟨_, hsizes, -⟩
    exact hsizes
  · rintro _ ⟨-, -, -, rfl⟩
    exact ⟨_, rfl, locates_joined hx hsize hpos⟩

end ArgReduce

/-- Running sums and positions of extreme elements along an axis. Sums are given if signed 64-bit
integers hold the sizes and the starts of the lanes can be counted, which only an axis of size zero
can prevent. At each position of a lane stands the wrapped sum of the elements up to it; it is left
out of exclusive sums, and sums from the end run from it on. Inclusive sums are exclusive ones with
the elements added, and sums from the end are those of the mirrored axis, mirrored. Positions along
an axis that is not empty are given if signed 64-bit integers hold the sizes that are left, and are
those of the first or the last extreme element. -/
theorem lane_laws {x : Tensor Int64} {axis : Int64} {dim size : Nat} (hx : (Value.int x).Held)
    (hdim : Axis.resolve x.shape.length axis = .ok dim) (hsize : x.shape[dim]? = some size) :
    (∀ k : Tensor Int64, k.shape.length ≤ 1 → k.data = [axis] →
      (∀ op : CumSum,
        ((∃ vs, Chain.reference.apply (.cumSum op) [some (.int x), some (.int k)] = .ok vs) ↔
          (∀ n ∈ x.shape, n < intLimit) ∧ (size = 0 → Shape.Counted (x.shape.set dim 1))) ∧
        ∀ vs, Chain.reference.apply (.cumSum op) [some (.int x), some (.int k)] = .ok vs →
          ∃ y, vs = [.int y] ∧ op.Running x dim size y) ∧
      (∀ reverse y z,
        Chain.reference.apply (.cumSum ⟨false, reverse⟩) [some (.int x), some (.int k)] =
        .ok [.int y] →
        Chain.reference.apply (.cumSum ⟨true, reverse⟩) [some (.int x), some (.int k)] =
        .ok [.int z] →
        ∀ index, List.Forall₂ (· < ·) index x.shape →
          ∃ a b, x.get? index = some a ∧ z.get? index = some b ∧ y.get? index = some (b + a)) ∧
      ∀ exclusive vs,
        Chain.reference.apply (.cumSum ⟨exclusive, true⟩) [some (.int x), some (.int k)] = .ok vs ↔
          ∃ z, Chain.reference.apply (.cumSum ⟨exclusive, false⟩)
              [some (.int (x.mirrored dim size)), some (.int k)] = .ok [.int z] ∧
            vs = [.int (z.mirrored dim size)]) ∧
    (0 < size → ∀ op : ArgReduce, op.axis = axis →
      ((∃ vs, Chain.reference.apply (.argReduce op) [some (.int x)] = .ok vs) ↔
        ∀ n ∈ x.shape.set dim 1, n < intLimit) ∧
      ∀ vs, Chain.reference.apply (.argReduce op) [some (.int x)] = .ok vs →
        ∃ y, vs = [.int y] ∧ op.Locates x dim size y) := by
  refine ⟨fun k hrank haxis => ?_, fun hpos op haxis => ?_⟩
  · have happly (op : CumSum) := op.apply_eq_ok_iff hx hrank haxis hdim hsize
    refine ⟨fun op => ⟨?_, fun vs hvs => ?_⟩, fun reverse y z hy hz index hindex =>
      ?_, fun exclusive vs => ?_⟩
    · have hrunning : ∃ y, op.Running x dim size y := ⟨_, op.running_write hsize rfl⟩
      simp only [happly]
      exact ⟨fun ⟨_, hgiven, _⟩ => hgiven, fun hgiven => hrunning.elim fun y hy =>
        ⟨_, hgiven, y, hy, rfl⟩⟩
    · obtain ⟨-, y, hy, rfl⟩ := (happly op vs).mp hvs
      exact ⟨y, rfl, hy⟩
    · obtain ⟨-, _, hrunning, ⟨⟩⟩ := (happly _ _).mp hy
      obtain ⟨-, _, hrunning', ⟨⟩⟩ := (happly _ _).mp hz
      exact hrunning.inclusive hsize hrunning' hindex
    · have hshape := Tensor.shape_mirrored x dim size
      have hmirrored : (Value.int (x.mirrored dim size)).Held := by
        refine Value.Held.of_volume (x := x) hx ?_ ?_ ?_ ?_ <;> rw [hshape]
        · exact hx.sizes
        · exact hx.counted
      have happly' :=
        CumSum.apply_eq_ok_iff ⟨exclusive, false⟩ hmirrored hrank haxis (hshape.symm ▸ hdim)
        (hshape.symm ▸ hsize)
      rw [happly]
      simp only [happly', hshape]
      constructor
      · rintro ⟨hgiven, y, hy, rfl⟩
        have hback : (y.mirrored dim size).mirrored dim size = y :=
          Tensor.mirrored_mirrored (hy.shape_eq.symm ▸ hsize)
        exact ⟨_, ⟨hgiven, _, hy.mirrored hsize, rfl⟩, by rw [hback]⟩
      · rintro ⟨_, ⟨hgiven, z, hz, ⟨⟩⟩, rfl⟩
        have hturned := hz.mirrored (hshape.symm ▸ hsize)
        rw [Tensor.mirrored_mirrored hsize] at hturned
        exact ⟨hgiven, _, hturned, rfl⟩
  · subst haxis
    exact op.apply_locates hx hdim hsize hpos

/-- Sums along two rows, of which one wraps around, and where the greatest numbers stand last in
them. -/
theorem lane_laws_rows :
    Chain.reference.apply (.cumSum ⟨false, false⟩)
        [some (.int ⟨[2, 3], [1, 5, 5, 9223372036854775807, 1, 0], rfl⟩),
        some (.int ⟨[], [-1], rfl⟩)] =
      .ok [.int ⟨[2, 3],
      [1, 6, 11, 9223372036854775807, -9223372036854775808, -9223372036854775808], rfl⟩] ∧
    CumSum.Running ⟨false, false⟩ ⟨[2, 3], [1, 5, 5, 9223372036854775807, 1, 0], rfl⟩ 1 3
      ⟨[2, 3], [1, 6, 11, 9223372036854775807, -9223372036854775808, -9223372036854775808], rfl⟩ ∧
    Chain.reference.apply (.argReduce ⟨.max, -1, false, true⟩)
        [some (.int ⟨[2, 3], [1, 5, 5, 9223372036854775807, 1, 0], rfl⟩)] =
        .ok [.int ⟨[2], [2, 0], rfl⟩] ∧
    ArgReduce.Locates ⟨.max, -1, false, true⟩ ⟨[2, 3], [1, 5, 5, 9223372036854775807, 1, 0], rfl⟩ 1
      3
      ⟨[2], [2, 0], rfl⟩ := by
  have hx : (Value.int ⟨[2, 3], [1, 5, 5, 9223372036854775807, 1, 0], rfl⟩).Held := by decide
  obtain ⟨hsums, hpositions⟩ := @lane_laws _ (-1) 1 3 hx rfl rfl
  have hsum : Chain.reference.apply (.cumSum ⟨false, false⟩)
        [some (.int ⟨[2, 3], [1, 5, 5, 9223372036854775807, 1, 0], rfl⟩),
          some (.int ⟨[], [-1], rfl⟩)] =
      .ok [.int ⟨[2, 3],
        [1, 6, 11, 9223372036854775807, -9223372036854775808, -9223372036854775808], rfl⟩] := by
    decide +kernel
  have hposition : Chain.reference.apply (.argReduce ⟨.max, -1, false, true⟩)
        [some (.int ⟨[2, 3], [1, 5, 5, 9223372036854775807, 1, 0], rfl⟩)] =
          .ok [.int ⟨[2], [2, 0], rfl⟩] := by
    decide +kernel
  obtain ⟨_, ⟨⟩, hrunning⟩ := ((hsums ⟨[], [-1], rfl⟩ (by decide) rfl).1 ⟨false, false⟩).2 _ hsum
  obtain ⟨_, ⟨⟩, hlocates⟩ := (hpositions (by decide) ⟨.max, -1, false, true⟩ rfl).2 _ hposition
  exact ⟨hsum, hrunning, hposition, hlocates⟩

/-- The starts of the lanes overflow though there are none. -/
theorem lane_laws_fault_empty :
    (Value.int ⟨[0, 2 ^ 32, 2 ^ 32], [], rfl⟩).Held ∧
    (Operator.cumSum ⟨false, false⟩).checkedTypes
        [some (.int ⟨[0, 2 ^ 32, 2 ^ 32], [], rfl⟩), some (.int ⟨[], [0], rfl⟩)] =
      .ok [⟨.int, [0, 2 ^ 32, 2 ^ 32]⟩] ∧
    Chain.reference.apply (.cumSum ⟨false, false⟩)
        [some (.int ⟨[0, 2 ^ 32, 2 ^ 32], [], rfl⟩), some (.int ⟨[], [0], rfl⟩)] = .fault := by
  refine ⟨by decide, by decide, by decide +kernel⟩

end TensorGraph
