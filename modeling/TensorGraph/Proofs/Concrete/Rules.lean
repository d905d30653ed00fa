import TensorGraph.Proofs.Follows
import TensorGraph.Proofs.Rules.Operators

/-! What inference tracks of values that are given, beside the descriptions from which a run
settles the types of its outputs. The shapes are the same in both, and the tracked elements are
those of the values. Rules do not fault on what is tracked where they give the types of outputs:
most steps look at nothing but shapes, and the others meet fewer known elements, for which the
rules do less. -/

namespace TensorGraph

open SymTensor

variable {names : Names}

namespace Value

variable {v : Value}

theorem covers_self_of_mem {e : SymElement} (h : e ∈ v.elements) : e.Covers names e := by
  cases v with
  | float t | int t =>
    obtain ⟨x, -, rfl⟩ := List.mem_map.mp h
    rfl

theorem tracked_toSymbolic (hv : v.Representable) : v.toSymbolic.Tracked := by
  intro es he
  rw [elements_toSymbolic, Option.map_eq_some_iff] at he
  obtain ⟨n, hn, rfl⟩ := he
  obtain ⟨-, sizes, hsizes, -, rfl⟩ := trackedCount_eq_some hn
  obtain ⟨heq, hword⟩ := SymShape.toShape?_eq_some hsizes
  obtain rfl := SymShape.ofShape_injective hv.sizes hword heq
  rw [shape_toSymbolic, v.length_elements, hn]

theorem sound_toSymbolic (hv : v.Representable) : Sound names v.toSymbolic v where
  describes :=
    { dtype := v.dtype_toSymbolic
      shape := by
        rw [v.shape_toSymbolic]
        exact SymShape.ofShape_covers_self v.shape
      elements := by
        intro es he
        rw [elements_toSymbolic, Option.map_eq_some_iff] at he
        obtain ⟨-, -, rfl⟩ := he
        exact List.forall₂_same.mpr fun e => covers_self_of_mem }
  tracked := tracked_toSymbolic hv
  representable := hv

/-- All elements of a scalar or vector are tracked, or none. -/
theorem toSymbolic_cases (v : Value) : v.toSymbolic = v.toWhole ∨ v.toSymbolic.elements = none := by
  cases hcount : trackedCount (.ofShape v.shape) with
  | none => exact .inr (by rw [elements_toSymbolic, hcount]; rfl)
  | some n =>
    have hrank : v.rank ≤ maxRank := by simpa [rank] using (trackedCount_eq_some hcount).1
    have helements : v.toSymbolic.elements = v.toWhole.elements := by
      rw [elements_toSymbolic, elements_toWhole, hcount, if_pos hrank]
      rfl
    left
    calc v.toSymbolic
        = ⟨v.toSymbolic.dtype, v.toSymbolic.shape, v.toSymbolic.elements⟩ := rfl
      _ = ⟨v.toWhole.dtype, v.toWhole.shape, v.toWhole.elements⟩ := by rw [helements]; simp

theorem elements_toShapeOnly (hv : v.Representable) {es : List SymElement}
    (he : v.toSymbolic.elements = some es) :
    v.toShapeOnly.elements = some (List.replicate es.length .unknown) := by
  have hcount := tracked_toSymbolic hv es he
  rw [shape_toSymbolic] at hcount
  rw [toShapeOnly, SymTensor.ofShape, hcount]
  rfl

theorem length_le_maxElements (hv : v.Representable) {es : List SymElement}
    (he : v.toSymbolic.elements = some es) : es.length ≤ maxElements := by
  obtain ⟨-, sizes, -, hmax, hlen⟩ := trackedCount_eq_some (tracked_toSymbolic hv es he)
  exact hlen ▸ hmax

end Value

namespace ValueInputs

variable {inputs : ValueInputs} {whole : List Nat} {i : Nat}

def symbolic (inputs : ValueInputs) : SymInputs := inputs.map (Option.map Value.toSymbolic)

theorem find?_symbolic (inputs : ValueInputs) (i : Nat) :
    Inputs.find? inputs.symbolic i = (Inputs.find? inputs i).map Value.toSymbolic :=
  SymInputs.find?_map inputs Value.toSymbolic i

theorem given_symbolic (inputs : ValueInputs) :
    Inputs.given inputs.symbolic = (Inputs.given inputs).map Value.toSymbolic := by
  simp [Inputs.given, symbolic, List.filterMap_map, List.map_filterMap]

theorem given_described_nil (inputs : ValueInputs) :
    Inputs.given (inputs.described []) = (Inputs.given inputs).map Value.toShapeOnly := by
  simp [Inputs.given, described_nil, List.filterMap_map, List.map_filterMap]

theorem representable_of_find? (h : ∀ v ∈ Inputs.given inputs, v.Representable) {v : Value}
    (hv : Inputs.find? inputs i = some v) : v.Representable := by
  rw [Inputs.find?, Option.join_eq_some_iff] at hv
  exact h v (List.mem_filterMap.mpr ⟨some v, List.mem_of_getElem? hv, rfl⟩)

theorem sound_symbolic (h : ∀ v ∈ Inputs.given inputs, v.Representable) :
    List.Forall₂ (Option.Rel (Sound names)) inputs.symbolic inputs := by
  refine List.forall₂_map_left_iff.mpr (List.forall₂_same.mpr fun o ho => ?_)
  cases o with
  | none => exact .none
  | some v => exact .some (Value.sound_toSymbolic (h v (List.mem_filterMap.mpr ⟨_, ho, rfl⟩)))

section Demand

variable {β : Type} {S : β → β → Prop} {f g : SymTensor → Outcome RuleError β}

theorem endures_demand (hi : whole.contains i = false)
    (h : ∀ v, Inputs.find? inputs i = some v →
      Outcome.Endures S (f v.toSymbolic) (g v.toShapeOnly)) :
    Outcome.Endures S (inputs.symbolic.demand i >>= f) ((inputs.described whole).demand i >>=
      g) := by
  rw [SymInputs.demand, SymInputs.demand, find?_symbolic, find?_described, hi]
  cases hv : Inputs.find? inputs i with
  | none => exact fun _ hb => by cases hb
  | some v => exact h v hv

theorem endures_demandWhole (hi : whole.contains i = true)
    (h : ∀ v, Inputs.find? inputs i = some v → Outcome.Endures S (f v.toSymbolic) (g v.toWhole)) :
    Outcome.Endures S (inputs.symbolic.demand i >>= f) ((inputs.described whole).demand i >>=
      g) := by
  rw [SymInputs.demand, SymInputs.demand, find?_symbolic, find?_described, hi]
  cases hv : Inputs.find? inputs i with
  | none => exact fun _ hb => by cases hb
  | some v => exact h v hv

end Demand

end ValueInputs

open Outcome ValueInputs

/-- Whether `x` does not fault where `y` gives a value. -/
abbrev Outcome.Lasts {ε ε' α β : Type} (x : Outcome ε α) (y : Outcome ε' β) : Prop :=
  Endures (fun _ _ => True) x y

theorem Outcome.lasts_refl {ε α : Type} (x : Outcome ε α) : Lasts x x :=
  (endures_refl x).mono fun _ _ _ => trivial

theorem Outcome.lasts_ok {ε ε' α β : Type} (a : α) (y : Outcome ε' β) :
    Lasts (.ok a : Outcome ε α) y :=
  endures_of_noFault (noFault_ok a) y

theorem Outcome.noFault_mapError {ε ε' α : Type} {x : Outcome ε α} (f : ε → ε') (h : x.NoFault) :
    (x.mapError f).NoFault := by
  cases x with
  | ok a => exact noFault_ok a
  | error e => exact noFault_error (f e)
  | fault => exact absurd rfl h

variable {inputs : ValueInputs}

theorem SymInputs.noFault_demand (sym : SymInputs) (i : Nat) : (sym.demand i).NoFault :=
  noFault_orRefuse _ _

theorem SymDim.noFault_broadcast (x y : SymDim) : (x.broadcast y).NoFault := by
  unfold broadcast
  split_ifs
  · exact noFault_ok y
  · exact noFault_ok x
  · split
    · split_ifs <;> simp
    · exact noFault_ok _
    · exact noFault_ok _

theorem SymShape.noFault_broadcast (shapes : List SymShape) : (broadcast shapes).NoFault := by
  refine noFault_foldlM (fun s t _ => ?_) scalar
  cases s with
  | unknown => exact noFault_ok _
  | ranked a =>
    cases t with
    | unknown => exact noFault_ok _
    | ranked b =>
      exact noFault_bind (noFault_mapM fun _ _ => SymDim.noFault_broadcast _ _)
        fun _ _ => noFault_ok _

theorem SymTensor.noFault_broadcast (ts : List SymTensor) (dtype : DataType) :
    (broadcast ts dtype).NoFault :=
  noFault_bind (SymShape.noFault_broadcast _) fun _ _ => noFault_ok _

theorem UnaryFn.noFault_infer (f : UnaryFn) (sym : SymInputs) : (f.infer sym).NoFault :=
  noFault_bind (sym.noFault_demand 0) fun _ _ => noFault_ok _

theorem BinaryFn.noFault_infer (f : BinaryFn) (sym : SymInputs) : (f.infer sym).NoFault := by
  refine noFault_bind (sym.noFault_demand 0) fun a _ =>
      noFault_bind (sym.noFault_demand 1) fun b _ => ?_
  refine noFault_bind (noFault_refuseIf _ _) fun _ _ => ?_
  exact noFault_bind (SymTensor.noFault_broadcast _ _) fun _ _ => noFault_ok _

theorem VariadicFn.noFault_infer (f : VariadicFn) (sym : SymInputs) : (f.infer sym).NoFault := by
  refine noFault_bind (sym.noFault_demand 0) fun first _ => ?_
  refine noFault_bind (noFault_refuseIf _ _) fun _ _ => ?_
  exact noFault_bind (SymTensor.noFault_broadcast _ _) fun _ _ => noFault_ok _

theorem Where.noFault_infer (sym : SymInputs) : (Where.infer sym).NoFault := by
  refine noFault_bind (sym.noFault_demand 0) fun c _ =>
      noFault_bind (sym.noFault_demand 1) fun x _ =>
    noFault_bind (sym.noFault_demand 2) fun y _ => ?_
  refine noFault_bind (noFault_refuseIf _ _) fun _ _ =>
      noFault_bind (noFault_refuseIf _ _) fun _ _ => ?_
  exact noFault_bind (SymTensor.noFault_broadcast _ _) fun _ _ => noFault_ok _

theorem Cast.noFault_infer (wanted : DataType) (sym : SymInputs) :
    (Cast.infer wanted sym).NoFault :=
  noFault_bind (sym.noFault_demand 0) fun _ _ => noFault_ok _

theorem Cast.noFault_inferLike (sym : SymInputs) : (Cast.inferLike sym).NoFault :=
  noFault_bind (sym.noFault_demand 0) fun _ _ =>
    noFault_bind (sym.noFault_demand 1) fun _ _ => noFault_ok _

theorem Reshaping.noFault_inferIdentity (sym : SymInputs) : (inferIdentity sym).NoFault :=
  noFault_bind (sym.noFault_demand 0) fun _ _ => noFault_ok _

theorem ShapeOf.noFault_infer (op : ShapeOf) (sym : SymInputs) : (op.infer sym).NoFault := by
  refine noFault_bind (sym.noFault_demand 0) fun x _ => ?_
  cases x.shape <;> exact noFault_ok _

theorem SizeOf.noFault_infer (sym : SymInputs) : (SizeOf.infer sym).NoFault :=
  noFault_bind (sym.noFault_demand 0) fun _ _ => noFault_ok _

theorem Transpose.noFault_infer (op : Transpose) (sym : SymInputs) : (op.infer sym).NoFault := by
  refine noFault_bind (sym.noFault_demand 0) fun x _ => ?_
  cases x.shape with
  | unknown => exact noFault_ok _
  | ranked ds =>
    refine noFault_bind ?_ fun _ _ => noFault_ok _
    unfold order
    cases op.perm with
    | none => exact noFault_ok _
    | some perm =>
      dsimp only
      split_ifs <;> simp

theorem noFault_fromEnd {ε : Type} {n limit : Int64} (h : 0 ≤ limit.toInt) :
    (if n < 0 then checkInt (n.toInt + limit.toInt) else .ok n : Outcome ε Int64).NoFault := by
  have hn := fitsInt_toInt n
  have hlimit := fitsInt_toInt limit
  unfold FitsInt at hn hlimit
  split_ifs with hneg
  · rw [Int64.lt_iff_toInt_lt, Int64.toInt_zero] at hneg
    exact noFault_checkInt (by unfold FitsInt; omega)
  · exact noFault_ok _

theorem intOfSize_nonneg {n : Nat} (h : n < intLimit) : 0 ≤ (intOfSize n).toInt := by
  rw [toInt_intOfSize h]
  omega

namespace Axis

variable {rank : Nat}

theorem noFault_resolve (h : rank < intLimit) (axis : Int64) :
    (resolve rank axis).NoFault := by
  simp only [resolve, ite_bind]
  refine noFault_bind (noFault_fromEnd (intOfSize_nonneg h)) fun _ _ => ?_
  split_ifs <;> simp

theorem noFault_resolveAll (h : rank < intLimit) (axes : List Int64) :
    (resolveAll rank axes).NoFault :=
  noFault_bind (noFault_mapM fun axis _ => noFault_resolve h axis) fun _ _ =>
    noFault_bind (noFault_refuseIf _ _) fun _ _ => noFault_ok _

end Axis

theorem Indexing.noFault_resolve {size : Nat} (h : size < intLimit) (index : Int64) :
    (resolve size index).NoFault := by
  simp only [resolve, ite_bind]
  refine noFault_bind (noFault_fromEnd (intOfSize_nonneg h)) fun _ _ => ?_
  split_ifs <;> simp

theorem Gather.noFault_pick {elements : List SymElement} (hlen : elements.length < intLimit)
    (output : SymTensor) (entry : SymElement × Nat) : (pick elements output entry).NoFault := by
  unfold pick
  cases entry.1.int? with
  | none => exact noFault_ok _
  | some index =>
    exact noFault_bind (noFault_mapError _ (Indexing.noFault_resolve hlen index)) fun _ _ =>
        noFault_ok _

theorem SliceRange.noFault_position_full {ε : Type} {size i : Nat} (hi : i < size)
    (hsize : size < intLimit) : ((full size).position i : Outcome ε Nat).NoFault := by
  have hlimit := intLimit_eq
  have hproduct : (intOfSize i).toInt * (full size).step.toInt = i := by
    rw [toInt_intOfSize (hi.trans hsize)]
    exact Int.mul_one _
  refine noFault_bind (noFault_checkInt ?_) fun distance hdistance => ?_
  · rw [hproduct, FitsInt]
    omega
  · refine noFault_bind (noFault_checkInt ?_) fun _ _ => noFault_ok _
    have hstart : (full size).start.toInt = 0 := rfl
    rw [hstart, toInt_of_checkInt hdistance, hproduct, FitsInt]
    omega

theorem SliceRange.noFault_full {ε : Type} {size : Nat} (hsize : size < intLimit) :
    ((List.range size).mapM (full size).position : Outcome ε (List Nat)).NoFault :=
  noFault_mapM fun _ hi => noFault_position_full (List.mem_range.mp hi) hsize

theorem Concat.infer_lasts (op : Concat) :
    Lasts (op.infer inputs.symbolic) (op.infer (inputs.described [])) := by
  refine endures_demand rfl fun first _ => endures_refuseIf fun _ => ?_
  have hshapes : (Inputs.given inputs.symbolic).map (·.shape) =
      (Inputs.given (inputs.described [])).map (·.shape) := by
    rw [given_symbolic, given_described_nil]
    simp
  rw [hshapes]
  refine endures_bind_same fun shape _ => ?_
  split <;> exact lasts_ok _ _

theorem Flatten.infer_lasts (op : Flatten) :
    Lasts (op.infer inputs.symbolic) (op.infer (inputs.described [])) := by
  refine endures_demand rfl fun v _ => ?_
  simp only [Value.shape_toSymbolic, Value.shape_toShapeOnly, SymShape.ofShape, ite_bind]
  exact endures_bind_same fun axis _ => endures_refuseIf fun _ => lasts_ok _ _

theorem SymShape.ofLargeRank_eq_ok {ε : Type} {rank : Nat} (h : rank * SymDim.bytes < byteLimit) :
    (ofLargeRank rank : Outcome ε SymShape) = .ok (ofRank rank) := by
  rw [ofLargeRank, checkRoom, Outcome.demand, if_pos h]
  rfl

namespace Value

variable {v : Value}

theorem demandIntVector_toSymbolic (v : Value) :
    v.toSymbolic.demandIntVector = v.toWhole.demandIntVector := by
  simp only [SymTensor.demandIntVector, dtype_toSymbolic, dtype_toWhole, shape_toSymbolic,
    shape_toWhole]

theorem toSizes_of_large {ε : Type} {n : Nat} (hnone : v.toSymbolic.elements = none)
    (hshape : v.shape = [n]) (hroom : n * SymDim.bytes < byteLimit) :
    (v.toSymbolic.toSizes : Outcome ε SymShape) = .ok (.ofRank n) := by
  have hlimit := intLimit_eq
  have hsmall : n < intLimit := by
    simp only [SymDim.bytes, byteLimit] at hroom
    omega
  have hnonneg : intOfSize n ≥ 0 := by
    rw [ge_iff_le, Int64.le_iff_toInt_le, toInt_intOfSize hsmall]
    simp
  have hword : n < sizeLimit := hsmall.trans (by decide)
  simp only [SymTensor.toSizes, hnone, shape_toSymbolic, hshape, SymShape.ofShape, List.map_cons,
    List.map_nil, SymDim.ofSize, if_pos hnonneg, sizeOfInt_intOfSize hword]
  exact SymShape.ofLargeRank_eq_ok hroom

/-- The sizes that a value lists are tracked, or nothing but their number is. -/
theorem toSizes_endures (v : Value) {ε : Type} :
    Endures (fun s r => s = r ∨ ∃ ds, r = .ranked ds ∧ s = .ofRank ds.length)
      (v.toSymbolic.toSizes : Outcome ε SymShape) (v.toWhole.toSizes : Outcome ε SymShape) := by
  rcases v.toSymbolic_cases with hsame | hnone
  · rw [hsame]
    exact (endures_refl _).mono fun _ _ => .inl
  by_cases hrank : v.rank ≤ maxRank
  · match hshape : v.shape, hrank with
    | [], _ =>
      -- a scalar has few enough elements to be tracked
      rw [elements_toSymbolic, hshape] at hnone
      cases hnone
    | [n], _ =>
      have hlen : v.elements.length = n := by simp [v.length_elements, hshape, Shape.volume]
      intro r hr
      rw [SymTensor.toSizes, elements_toWhole, if_pos hrank] at hr
      obtain ⟨_, hroom, hr⟩ := bind_eq_ok.mp hr
      have hfits : n * SymDim.bytes < byteLimit := hlen ▸ demand_eq_ok.mp hroom
      rw [toSizes_of_large hnone hshape hfits]
      refine ⟨noFault_ok _, fun s hs => .inr ⟨_, (ok.inj hr).symm, ?_⟩⟩
      rw [← ok.inj hs, List.length_map, hlen]
    | _ :: _ :: _, hrank => simp [rank, hshape, maxRank] at hrank
  · have hsame : (v.toSymbolic.toSizes : Outcome ε SymShape) = v.toWhole.toSizes := by
      simp only [SymTensor.toSizes, hnone, elements_toWhole, if_neg hrank, shape_toSymbolic,
        shape_toWhole]
    rw [hsame]
    exact (endures_refl _).mono fun _ _ => .inl

end Value

theorem ConstantOfShape.infer_lasts (op : ConstantOfShape) :
    Lasts (op.infer inputs.symbolic) (op.infer (inputs.described [0])) := by
  refine endures_demandWhole rfl fun v _ => endures_refuseIf fun _ => ?_
  refine v.toSizes_endures.bind fun _ _ _ _ => ?_
  exact endures_refuseIf fun _ => lasts_ok _ _

theorem Expand.infer_lasts :
    Lasts (Expand.infer inputs.symbolic) (Expand.infer (inputs.described [1])) := by
  refine endures_demand rfl fun x _ => endures_demandWhole rfl fun v _ => ?_
  rw [v.demandIntVector_toSymbolic]
  refine endures_bind_same fun _ _ => ?_
  refine v.toSizes_endures.bind fun _ _ _ _ => ?_
  refine endures_of_noFault (noFault_bind (SymShape.noFault_broadcast _) fun _ _ => noFault_ok _) _

theorem SymShape.noFault_targetDims (s : SymShape) (allowZero isOpen : Bool) (i : Nat)
    (wanted : List SymDim) : (s.targetDims allowZero isOpen i wanted).NoFault := by
  induction wanted generalizing isOpen i with
  | nil => exact noFault_ok _
  | cons d wanted ih =>
    refine noFault_bind (noFault_refuseIf _ _) fun _ _ => noFault_bind ?_ fun _ _ =>
      noFault_bind (ih _ _) fun _ _ => noFault_ok _
    unfold targetDim
    split
    · split_ifs <;> simp
    · exact noFault_ok _

/-- No size of a target of which only the rank is known is open or divides another one. -/
theorem SymShape.noFault_reshape_ofRank (s : SymShape) (n : Nat) (allowZero : Bool) :
    (s.reshape (ofRank n) allowZero).NoFault := by
  have hopen : (List.replicate n SymDim.unknown).findIdx? (· == .size (-1)) = none := by
    rw [List.findIdx?_eq_none_iff]
    intro d hd
    rw [List.eq_of_mem_replicate hd]
    rfl
  unfold reshape
  simp only [ofRank, hopen]
  refine noFault_bind (s.noFault_targetDims allowZero false 0 _) fun dims _ => ?_
  split
  · exact noFault_bind (noFault_refuseIf _ _) fun _ _ => noFault_ok _
  · exact noFault_ok _

theorem Reshape.infer_lasts (op : Reshape) :
    Lasts (op.infer inputs.symbolic) (op.infer (inputs.described [1])) := by
  refine endures_demand rfl fun x _ => endures_demandWhole rfl fun v _ => ?_
  rw [v.demandIntVector_toSymbolic]
  refine endures_bind_same fun _ _ => ?_
  refine v.toSizes_endures.bind fun s r hs _ => ?_
  rcases hs with rfl | ⟨ds, -, rfl⟩
  · rw [x.shape_toSymbolic, x.shape_toShapeOnly]
    exact endures_bind_same fun _ _ => lasts_ok _ _
  · exact endures_of_noFault
      (noFault_bind (SymShape.noFault_reshape_ofRank _ _ _) fun _ _ => noFault_ok _) _

end TensorGraph
