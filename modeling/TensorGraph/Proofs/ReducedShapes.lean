import TensorGraph.Proofs.Applying
import TensorGraph.Proofs.Rules.Reduction
import TensorGraph.Proofs.Writes

/-! Shapes of reductions. Reduced dimensions are cut to one and then kept or dropped, which changes
neither the order of the positions nor the room that they take. -/

namespace TensorGraph

open Outcome

variable {ε α β : Type} {dims : List Nat}

/-- The entries of a list whose places, counted from `n` on, are not among the dropped ones. -/
def dropFrom (dims : List Nat) (n : Nat) (xs : List α) : List α :=
  (xs.zipIdx n).filterMap fun s => if s.2 ∈ dims then none else some s.1

@[simp] theorem dropFrom_nil (dims : List Nat) (n : Nat) : dropFrom dims n ([] : List α) = [] := rfl

theorem dropFrom_cons (dims : List Nat) (n : Nat) (a : α) (xs : List α) :
    dropFrom dims n (a :: xs) =
    if n ∈ dims then dropFrom dims (n + 1) xs else a :: dropFrom dims (n + 1) xs := by
  rw [dropFrom, List.zipIdx_cons, List.filterMap_cons]
  by_cases h : n ∈ dims
  · rw [if_pos h, if_pos h]
    rfl
  · rw [if_neg h, if_neg h]
    rfl

theorem dropFrom_map (f : α → β) (dims : List Nat) (n : Nat) (xs : List α) :
    dropFrom dims n (xs.map f) = (dropFrom dims n xs).map f := by
  induction xs generalizing n with
  | nil => rfl
  | cons a xs ih =>
    rw [List.map_cons, dropFrom_cons, dropFrom_cons, ih]
    split_ifs <;> rfl

theorem length_dropFrom_le (dims : List Nat) (n : Nat) (xs : List α) :
    (dropFrom dims n xs).length ≤ xs.length := by
  have hlength :=
    List.length_filterMap_le (fun s : α × Nat => if s.2 ∈ dims then none else some s.1)
      (xs.zipIdx n)
  rwa [List.length_zipIdx] at hlength

theorem dropFrom_of_lt {n : Nat} (h : ∀ dim ∈ dims, dim < n) (xs : List α) :
    dropFrom dims n xs = xs := by
  induction xs generalizing n with
  | nil => rfl
  | cons a xs ih =>
    have hkept : n ∉ dims := fun hn => Nat.lt_irrefl n (h n hn)
    rw [dropFrom_cons, if_neg hkept, ih fun dim hdim => Nat.lt_succ_of_lt (h dim hdim)]

theorem dropFrom_singleton (dim n : Nat) (xs : List α) :
    dropFrom [n + dim] n xs = xs.eraseIdx dim := by
  induction xs generalizing dim n with
  | nil => rfl
  | cons a xs ih =>
    rw [dropFrom_cons]
    cases dim with
    | zero => simpa using dropFrom_of_lt (by simp) xs
    | succ dim =>
      have hkept : n ∉ [n + (dim + 1)] := by simp
      rw [if_neg hkept, List.eraseIdx_cons_succ, ← ih dim (n + 1), Nat.add_right_comm,
        Nat.add_assoc]

/-- What is in front of some of the entries that are left is left of what is in front in the
list. -/
theorem exists_prefix_of_dropFrom {n : Nat} {xs front : List α} (h : front <+: dropFrom dims n xs) :
    ∃ whole, whole <+: xs ∧ dropFrom dims n whole = front := by
  induction xs generalizing n front with
  | nil => exact ⟨[], List.prefix_rfl, (List.prefix_nil.mp h).symm⟩
  | cons a xs ih =>
    rw [dropFrom_cons] at h
    by_cases hdrop : n ∈ dims
    · rw [if_pos hdrop] at h
      obtain ⟨whole, hwhole, rfl⟩ := ih h
      exact ⟨a :: whole, List.prefix_cons_inj a |>.mpr hwhole, by rw [dropFrom_cons, if_pos hdrop]⟩
    · rw [if_neg hdrop, List.prefix_cons_iff] at h
      rcases h with rfl | ⟨front, rfl, hfront⟩
      · exact ⟨[], List.nil_prefix, rfl⟩
      · obtain ⟨whole, hwhole, rfl⟩ := ih hfront
        exact ⟨a :: whole,
          List.prefix_cons_inj a |>.mpr hwhole, by rw [dropFrom_cons, if_neg hdrop]⟩

def OneAt (dims : List Nat) (n : Nat) (shape : Shape) : Prop :=
  ∀ k size, n + k ∈ dims → shape[k]? = some size → size = 1

theorem OneAt.cons_iff {n size : Nat} {shape : Shape} : OneAt dims n (size :: shape) ↔
    (n ∈ dims → size = 1) ∧ OneAt dims (n + 1) shape := by
  constructor
  · intro h
    refine ⟨fun hn => h 0 size hn rfl, fun k m hk hm => ?_⟩
    rw [Nat.add_right_comm] at hk
    exact h (k + 1) m hk hm
  · rintro ⟨hfirst, hrest⟩ k m hk hm
    cases k with
    | zero =>
      cases hm
      exact hfirst hk
    | succ k =>
      rw [← Nat.add_assoc, Nat.add_right_comm] at hk
      exact hrest k m hk hm

theorem OneAt.of_prefix {n : Nat} {front shape : Shape} (h : OneAt dims n shape)
    (hfront : front <+: shape) :
    OneAt dims n front := by
  obtain ⟨rest, rfl⟩ := hfront
  intro k m hk hm
  exact h k m hk ((List.getElem?_append_left (List.getElem?_eq_some_iff.mp hm).1).trans hm)

/-- Positions drop their coordinates along dropped dimensions, and stay in their order. -/
theorem Index.map_dropFrom_all {n : Nat} {shape : Shape} (h : OneAt dims n shape) :
    (all shape).map (dropFrom dims n) = all (dropFrom dims n shape) := by
  induction shape generalizing n with
  | nil => rfl
  | cons size shape ih =>
    obtain ⟨hfirst, hrest⟩ := OneAt.cons_iff.mp h
    have hall : ∀ m s, all (m :: s) = (List.range' 0 m).flatMap fun i => (all s).map (i :: ·) :=
      fun _ _ => rfl
    rw [hall, List.map_flatMap, dropFrom_cons]
    simp only [List.map_map, Function.comp_def, dropFrom_cons]
    by_cases hdrop : n ∈ dims
    · have hone : List.range' 0 1 = [0] := rfl
      simp only [hdrop, if_true]
      rw [hfirst hdrop, hone, List.flatMap_singleton, ih hrest]
    · simp only [hdrop, if_false]
      rw [hall, ← ih hrest]
      simp only [List.map_map, Function.comp_def]

theorem prod_dropFrom {n : Nat} {shape : Shape} (h : OneAt dims n shape) :
    (dropFrom dims n shape).prod = shape.prod := by
  induction shape generalizing n with
  | nil => rfl
  | cons size shape ih =>
    obtain ⟨hfirst, hrest⟩ := OneAt.cons_iff.mp h
    rw [dropFrom_cons]
    by_cases hdrop : n ∈ dims
    · rw [if_pos hdrop, ih hrest, hfirst hdrop, List.prod_cons, Nat.one_mul]
    · rw [if_neg hdrop, List.prod_cons, List.prod_cons, ih hrest]

theorem mem_or_one_of_dropFrom {n : Nat} {shape : Shape} (h : OneAt dims n shape) {size : Nat}
    (hsize : size ∈ shape) : size ∈ dropFrom dims n shape ∨ size = 1 := by
  induction shape generalizing n with
  | nil => cases hsize
  | cons m shape ih =>
    obtain ⟨hfirst, hrest⟩ := OneAt.cons_iff.mp h
    rw [dropFrom_cons]
    by_cases hdrop : n ∈ dims
    · rw [if_pos hdrop]
      rcases List.mem_cons.mp hsize with rfl | hmem
      · exact .inr (hfirst hdrop)
      · exact ih hrest hmem
    · rw [if_neg hdrop, List.mem_cons, or_assoc]
      exact (List.mem_cons.mp hsize).imp_right (ih hrest)

theorem counted_dropFrom {n : Nat} {shape : Shape} (h : OneAt dims n shape) :
    Shape.Counted (dropFrom dims n shape) ↔ shape.Counted := by
  constructor
  · rintro hcounted front ⟨rest, rfl⟩
    rw [← prod_dropFrom (h.of_prefix (List.prefix_append front rest))]
    refine hcounted _ ?_
    rw [dropFrom, dropFrom, List.zipIdx_append, List.filterMap_append]
    exact List.prefix_append _ _
  · intro hcounted front hfront
    obtain ⟨whole, hwhole, rfl⟩ := exists_prefix_of_dropFrom hfront
    rw [prod_dropFrom (h.of_prefix hwhole)]
    exact hcounted whole hwhole

namespace Tensor

/-- The shape of a reduction, where reduced dimensions are kept with size one or dropped. -/
def reducedShape (shape : Shape) (dims : List Nat) (keep : Bool) : Shape :=
  if keep then cutShape shape dims else dropFrom dims 0 (cutShape shape dims)

def reducedIndex (dims : List Nat) (keep : Bool) (index : Index) : Index :=
  if keep then index else dropFrom dims 0 index

section Shapes

variable (shape : Shape) (dims : List Nat) (keep : Bool)

theorem getElem?_cutShape (k : Nat) :
    (cutShape shape dims)[k]? = shape[k]?.map fun size => if k ∈ dims then 1 else size := by
  rw [cutShape, List.getElem?_map, List.getElem?_zipIdx, Option.map_map, Nat.zero_add]
  simp only [List.contains_iff_mem]
  rfl

theorem length_cutShape : (cutShape shape dims).length = shape.length := by
  rw [cutShape, List.length_map, List.length_zipIdx]

theorem oneAt_cutShape : OneAt dims 0 (cutShape shape dims) := by
  intro k size hk hsize
  rw [Nat.zero_add] at hk
  rw [getElem?_cutShape] at hsize
  obtain ⟨_, -, rfl⟩ := Option.map_eq_some_iff.mp hsize
  exact if_pos hk

theorem dropFrom_cutShape : dropFrom dims 0 (cutShape shape dims) = dropFrom dims 0 shape := by
  have hfrom : ∀ n, dropFrom dims n ((shape.zipIdx n).map fun s => if s.2 ∈ dims then 1 else s.1) =
      dropFrom dims n shape := by
    induction shape with
    | nil => exact fun _ => rfl
    | cons size shape ih =>
      intro n
      rw [List.zipIdx_cons, List.map_cons, dropFrom_cons, dropFrom_cons, ih]
      split_ifs <;> rfl
  rw [← hfrom 0, cutShape]
  simp only [List.contains_iff_mem]

theorem all_reducedShape :
    Index.all (reducedShape shape dims keep) =
      (Index.all (cutShape shape dims)).map (reducedIndex dims keep) := by
  cases keep with
  | true => exact (List.map_id _).symm
  | false => exact (Index.map_dropFrom_all (oneAt_cutShape shape dims)).symm

theorem counted_reducedShape_iff :
    Shape.Counted (reducedShape shape dims keep) ↔ Shape.Counted (cutShape shape dims) := by
  cases keep with
  | true => exact Iff.rfl
  | false => exact counted_dropFrom (oneAt_cutShape shape dims)

theorem volume_reducedShape :
    (reducedShape shape dims keep).volume = (cutShape shape dims).volume := by
  rw [Shape.volume_eq_prod, Shape.volume_eq_prod]
  cases keep with
  | true => rfl
  | false => exact prod_dropFrom (oneAt_cutShape shape dims)

theorem length_reducedShape_le : (reducedShape shape dims keep).length ≤ shape.length := by
  rw [← length_cutShape shape dims]
  cases keep with
  | true => exact Nat.le_refl _
  | false => exact length_dropFrom_le dims 0 _

theorem forall_mem_reducedShape_iff {P : Nat → Prop} (hone : P 1) :
    (∀ n ∈ reducedShape shape dims keep, P n) ↔ ∀ n ∈ cutShape shape dims, P n := by
  cases keep with
  | true => exact Iff.rfl
  | false =>
    constructor
    · intro h n hn
      rcases mem_or_one_of_dropFrom (oneAt_cutShape shape dims) hn with hmem | rfl
      · exact h n hmem
      · exact hone
    · intro h n hn
      obtain ⟨s, hs, hkept⟩ := List.mem_filterMap.mp hn
      split_ifs at hkept
      cases hkept
      exact h _ (List.fst_mem_of_mem_zipIdx hs)

end Shapes

section Joining

variable (join : List α → β) (x : Tensor α) (dims : List Nat) (keep : Bool)

def laneAt (index : Index) : List α := (Index.box (laneBox x.shape dims index)).filterMap x.get?

def joined : Tensor β where
  shape := reducedShape x.shape dims keep
  data := (Index.all (cutShape x.shape dims)).map fun index => join (x.laneAt dims index)
  length_data := by rw [List.length_map, Index.length_all, volume_reducedShape]

theorem get?_joined {index : Index} (hindex : List.Forall₂ (· < ·) index (cutShape x.shape dims)) :
    (x.joined join dims keep).get? (reducedIndex dims keep index) =
      some (join (x.laneAt dims index)) := by
  have hread := (x.joined join dims keep).forall₂_get?
  have hall : Index.all (x.joined join dims keep).shape =
      (Index.all (cutShape x.shape dims)).map (reducedIndex dims keep) :=
        all_reducedShape x.shape dims keep
  have hdata : (x.joined join dims keep).data =
      (Index.all (cutShape x.shape dims)).map fun index => join (x.laneAt dims index) := rfl
  rw [hall, hdata, List.forall₂_map_left_iff, List.forall₂_map_right_iff, List.forall₂_same]
    at hread
  exact hread index (Index.mem_all_iff.mpr hindex)

/-- An output of the reduced shape is overwritten with the joined lanes, if these can be counted. -/
theorem overwrite_lanes {out : Tensor β} (hout : out.shape = reducedShape x.shape dims keep) :
    (x.lanes dims >>= fun ls => .ok (out.overwrite (ls.map join)) : Outcome ε (Tensor β)) =
      if Shape.Counted (cutShape x.shape dims) then .ok (x.joined join dims keep) else .fault := by
  rw [lanes, Layout.checkedAll_eq]
  split_ifs
  · have hlanes : ((Index.all (cutShape x.shape dims)).map (x.laneAt dims)).map join =
        (x.joined join dims keep).data := List.map_map
    refine congrArg Outcome.ok ((congrArg out.overwrite hlanes).trans ?_)
    exact overwrite_eq (u := x.joined join dims keep) hout
  · rfl

end Joining

end Tensor

/-- The dimensions over which a reduction runs: those that the axes denote, or all of them. -/
def Axis.Selects (rank : Nat) (dims : List Nat) : Option (List Int64) → Prop
  | some axes => resolveAll rank axes = .ok dims
  | none => dims = List.range rank

namespace SymShape

variable {shape : Shape}

theorem filterMap_kept (shape : Shape) (dims : List Nat) (keep : Bool) :
    ((shape.map SymDim.ofSize).zipIdx.filterMap fun s =>
      if !dims.contains s.2 then some s.1 else if keep then some (.size 1) else none) =
        (Tensor.reducedShape shape dims keep).map .ofSize := by
  cases keep with
  | true =>
    have hcut : (fun s : SymDim × Nat => if !dims.contains s.2 then some s.1 else some (.size 1)) =
        some ∘ fun s => if dims.contains s.2 then .size 1 else s.1 := by
      funext s
      by_cases hs : s.2 ∈ dims <;> simp [hs]
    have hkept : Tensor.reducedShape shape dims true = Tensor.cutShape shape dims := rfl
    simp only [if_true]
    rw [hkept, Tensor.cutShape, List.map_map, hcut, List.filterMap_eq_map, List.zipIdx_map,
      List.map_map]
    refine List.map_congr_left fun s _ => ?_
    simp only [Function.comp_apply, Prod.map_fst, Prod.map_snd, id]
    split_ifs <;> rfl
  | false =>
    have hdrop : (fun s : SymDim × Nat => if !dims.contains s.2 then some s.1 else none) =
        fun s => if s.2 ∈ dims then none else some s.1 := by
      funext s
      by_cases hs : s.2 ∈ dims <;> simp [hs]
    have hdropped : Tensor.reducedShape shape dims false = dropFrom dims 0 shape :=
      Tensor.dropFrom_cutShape shape dims
    rw [hdropped, ← dropFrom_map]
    simp only [Bool.false_eq_true, if_false]
    rw [hdrop]
    rfl

theorem reduce_ofShape {axes : Option (List Int64)} (keep : Bool)
    (h : Axis.Selects shape.length dims axes) :
    (ofShape shape).reduce axes keep = .ok (.ofShape (Tensor.reducedShape shape dims keep)) := by
  have hranked : (Outcome.ok (ranked ((shape.map SymDim.ofSize).zipIdx.filterMap fun s =>
      if !dims.contains s.2 then some s.1 else if keep then some (.size 1) else none)) :
        Outcome RuleError _) =
        .ok (.ofShape (Tensor.reducedShape shape dims keep)) := by
    rw [filterMap_kept]
    rfl
  cases axes with
  | none =>
    obtain rfl : dims = List.range shape.length := h
    rw [ofShape, reduce, ok_bind, List.length_map]
    exact hranked
  | some axes =>
    have hresolved : Axis.resolveAll shape.length axes = .ok dims := h
    rw [ofShape, reduce, List.length_map, hresolved, ok_bind]
    exact hranked

end SymShape

namespace Chain

theorem apply_joined_iff (op : Operator) {inputs : ValueInputs} {x : Tensor α} {w : SymTensor}
    {join : List α → Int64} {keep : Bool}
    (hsizes : ∀ n ∈ x.shape, n < sizeLimit) (hrank : x.shape.length * Shape.entryBytes < byteLimit)
    (harity : op.demandArity inputs.length = .ok ())
    (hop : op.outputTypes inputs = op.inferredTypes inputs) (hcount : op.outputCount = 1)
    (hinfer : op.infer (inputs.zipIdx.map op.describeInput) = .ok [w]) (hdtype : w.dtype = .int)
    (hshape : w.shape = .ofShape (Tensor.reducedShape x.shape dims keep))
    (hrun : ∀ z : Tensor Int64, z.shape = Tensor.reducedShape x.shape dims keep →
      (op.prepare .none inputs [.int z] >>= fun k => k ()) =
        (x.lanes dims >>= fun ls => .ok (z.overwrite (ls.map join))) >>= Kernel.filled) {vs :
    List Value} :
    reference.apply op inputs = .ok vs ↔
      (∀ n ∈ Tensor.cutShape x.shape dims, n < intLimit) ∧
      Shape.Counted (Tensor.cutShape x.shape dims) ∧
      (Tensor.cutShape x.shape dims).volume * 8 < byteLimit ∧
        vs = [.int (x.joined join dims keep)] := by
  have hlimit : ∀ n ∈ Tensor.reducedShape x.shape dims keep, n < sizeLimit := by
    rw [Tensor.forall_mem_reducedShape_iff _ _ _ (by decide)]
    intro n hn
    obtain ⟨k, hk⟩ := List.getElem?_of_mem hn
    rw [Tensor.getElem?_cutShape] at hk
    obtain ⟨size, hsize, rfl⟩ := Option.map_eq_some_iff.mp hk
    split_ifs
    · decide
    · exact hsizes size (List.mem_of_getElem? hsize)
  have hzeros :
      (∃ z, (Value.zeros ⟨.int, Tensor.reducedShape x.shape dims keep⟩ : Outcome OpError Value) =
      .ok z) ↔
      Shape.Counted (Tensor.cutShape x.shape dims) ∧
        (Tensor.cutShape x.shape dims).volume * 8 < byteLimit := by
    rw [Value.exists_zeros_iff, Tensor.counted_reducedShape_iff, Tensor.volume_reducedShape]
    have hroom :=
      (Nat.mul_le_mul_right _ (Tensor.length_reducedShape_le x.shape dims keep)).trans_lt hrank
    exact and_iff_right hroom
  have hfilled : ∀ z : Tensor Int64, z.shape = Tensor.reducedShape x.shape dims keep →
      (op.prepare .none inputs [.int z] >>= fun k => k ()) =
        (if Shape.Counted (Tensor.cutShape x.shape dims) then .ok (x.joined join dims keep) else
          .fault) >>=
          Kernel.filled := by
    intro z hz
    rw [hrun z hz, Tensor.overwrite_lanes join x dims keep hz]
  have hint : w.dtype = (Value.Stored.wrap (x.joined join dims keep)).dtype := hdtype
  have hwrap : Value.Stored.wrap (x.joined join dims keep) = .int (x.joined join dims keep) := rfl
  rw [apply_eq_ok_iff op harity hop hcount hinfer hint hshape hlimit hfilled,
    Tensor.forall_mem_reducedShape_iff _ _ _ (by decide)]
  refine and_congr_right fun _ => (and_congr_left' hzeros).trans ?_
  by_cases hcounted : Shape.Counted (Tensor.cutShape x.shape dims)
  · simp [hcounted, hwrap]
  · simp [hcounted]

end Chain

end TensorGraph
