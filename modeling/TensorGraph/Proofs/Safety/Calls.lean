import Mathlib.Algebra.Order.BigOperators.Group.List
import Mathlib.Algebra.Order.Group.Nat
import TensorGraph.Proofs.Concrete.Rules
import TensorGraph.Proofs.Kernels.Dispatch
import TensorGraph.Proofs.Kernels.Elements
import TensorGraph.Proofs.Rules.Operators
import TensorGraph.Proofs.Safety.Sizes
import TensorGraph.Proofs.Safety.Tensors

/-! Calls whose shapes are accepted: the outputs have the types that are inferred from the inputs,
and all of them fit memory together. A call is safe if neither preparing nor running its kernel
faults. -/

namespace TensorGraph

open Outcome

namespace Shape

variable {a b shape : Shape}

/-- Whether the elements and the sizes of a shape can be counted, also those of an empty array when
its dimensions of size zero count as one. -/
structure Fits (shape : Shape) : Prop where
  extent_lt : shape.extent < countLimit
  rank_lt : shape.length < countLimit

theorem Fits.extent_lt_sizeLimit (h : shape.Fits) : shape.extent < sizeLimit :=
  h.extent_lt.trans (by decide)

theorem Fits.size_lt (h : shape.Fits) {n : Nat} (hn : n ∈ shape) : n < countLimit :=
  (le_extent_of_mem hn).trans_lt h.extent_lt

theorem Fits.lt_sizeLimit (h : shape.Fits) {n : Nat} (hn : n ∈ shape) : n < sizeLimit :=
  (h.size_lt hn).trans (by decide)

theorem Fits.volume_lt (h : shape.Fits) : shape.volume < countLimit :=
  shape.volume_le_extent.trans_lt h.extent_lt

theorem Fits.of_sublist (h : b.Fits) (hsub : a.Sublist b) : a.Fits :=
  ⟨(extent_le_of_sublist hsub).trans_lt h.extent_lt, hsub.length_le.trans_lt h.rank_lt⟩

theorem Fits.of_perm (h : b.Fits) (hperm : a.Perm b) : a.Fits :=
  ⟨(extent_perm hperm).trans_lt h.extent_lt, hperm.length_eq.trans_lt h.rank_lt⟩

theorem Fits.drop (h : shape.Fits) (k : Nat) : Fits (shape.drop k) :=
  h.of_sublist (List.drop_sublist k shape)

end Shape

theorem SymShape.eq_of_refine {a b : Shape} (ha : ∀ n ∈ a, n < sizeLimit)
    (hb : ∀ n ∈ b, n < sizeLimit) {s : SymShape} (h : (ofShape a).refine (ofShape b) = .ok s) :
    a = b ∧ s = ofShape a := by
  obtain ⟨hlen, rs, rfl, hrs⟩ := refine_ranked h
  have hsizes : ∀ (i : Nat) (hi : i < (a.map SymDim.ofSize).length)
      (hi' : i < (b.map SymDim.ofSize).length),
      rs[i]? = some (a.map SymDim.ofSize)[i] ∧ rs[i]? = some (b.map SymDim.ofSize)[i] := by
    intro i hi hi'
    have hzip : ((a.map SymDim.ofSize).zip (b.map SymDim.ofSize))[i]? =
        some ((a.map SymDim.ofSize)[i], (b.map SymDim.ofSize)[i]) := by
      rw [List.getElem?_eq_getElem (by rw [List.length_zip]; omega), List.getElem_zip]
    obtain ⟨r, hr, hsize⟩ := Related.get_left hrs hzip
    simp only [List.getElem_map, SymDim.ofSize] at hsize ⊢
    rw [hr]
    exact ⟨congrArg some (SymDim.eq_of_refine_left hsize),
      congrArg some (SymDim.eq_of_refine_right hsize)⟩
  have heq : a.map SymDim.ofSize = b.map SymDim.ofSize := List.ext_getElem hlen fun i hi hi' =>
    Option.some.inj ((hsizes i hi hi').1.symm.trans (hsizes i hi hi').2)
  refine ⟨ofShape_injective ha hb (congrArg ranked heq), congrArg ranked ?_⟩
  have hlen' := hrs.length_eq
  rw [List.length_zip, hlen, Nat.min_self] at hlen'
  refine List.ext_getElem (hlen'.symm.trans hlen.symm) fun i hi hi' => Option.some.inj ?_
  rw [← List.getElem?_eq_getElem hi]
  exact (hsizes i hi' (hlen ▸ hi')).1

theorem SymShape.declareRank_ofShape {shape : Shape} {rank : Nat} {s : SymShape}
    (h : (ofShape shape).declareRank rank = .ok s) : shape.length = rank ∧ s = ofShape shape := by
  simp only [ofShape, declareRank, List.length_map] at h
  split_ifs at h with hrank
  cases h
  exact ⟨hrank, rfl⟩

theorem SymShape.demandRank_ofShape {shape : Shape} {least : Nat} {u : Unit}
    (h : (ofShape shape).demandRank least = .ok u) : least ≤ shape.length := by
  simpa [demandRank] using h

namespace Value

variable {v : Value} {vs : List Value}

/-- The memory that a value takes, where dimensions of size zero count as one. -/
def room (v : Value) : Nat := v.shape.extent * v.dtype.bytes + v.shape.length * Shape.entryBytes

theorem fits_of_room (h : v.room < byteLimit) : v.shape.Fits := by
  have hbytes : 4 ≤ v.dtype.bytes := by cases v.dtype <;> decide
  have helements : v.shape.extent * 4 ≤ v.shape.extent * v.dtype.bytes :=
    Nat.mul_le_mul_left _ hbytes
  unfold room byteLimit Shape.entryBytes at h
  constructor <;> unfold countLimit <;> omega

def FitTogether (vs : List Value) : Prop := (vs.map room).sum < byteLimit

instance (vs : List Value) : Decidable (FitTogether vs) := inferInstanceAs (Decidable (_ < _))

theorem FitTogether.fits (h : FitTogether vs) (hv : v ∈ vs) : v.shape.Fits := by
  refine fits_of_room (lt_of_le_of_lt ?_ h)
  exact List.single_le_sum (fun _ _ => Nat.zero_le _) _ (List.mem_map_of_mem hv)

theorem FitTogether.left {us : List Value} (h : FitTogether (vs ++ us)) : FitTogether vs := by
  unfold FitTogether at h ⊢
  rw [List.map_append, List.sum_append] at h
  omega

theorem FitTogether.right {us : List Value} (h : FitTogether (us ++ vs)) : FitTogether vs := by
  unfold FitTogether at h ⊢
  rw [List.map_append, List.sum_append] at h
  omega

theorem shape_of_type {dtype : DataType} {shape : Shape} (h : [v].map type = [⟨dtype, shape⟩]) :
    v.shape = shape := by
  simp only [List.map_cons, List.map_nil, List.cons.injEq, and_true, type, ValueType.mk.injEq] at h
  exact h.2

end Value

/-- Whether the outputs of a call have the types that are inferred from its inputs, and all of these
values fit memory together. -/
structure Operator.Accepts (op : Operator) (inputs : ValueInputs) (outputs : List Value) : Prop
  where
  types : op.checkedTypes inputs = .ok (outputs.map Value.type)
  room : Value.FitTogether (Inputs.given inputs ++ outputs)

variable {op : Operator} {inputs : ValueInputs} {outputs : List Value} {i : Nat} {v out : Value}

namespace Operator.Accepts

theorem fits_input (h : op.Accepts inputs outputs) (hv : Inputs.find? inputs i = some v) :
    v.shape.Fits :=
  h.room.fits (List.mem_append_left _ (SymInputs.mem_given_of_find? hv))

theorem fits_output (h : op.Accepts inputs outputs) (hv : v ∈ outputs) : v.shape.Fits :=
  h.room.fits (List.mem_append_right _ hv)

theorem fits_single (h : op.Accepts inputs [out]) : out.shape.Fits :=
  h.fits_output (List.mem_singleton.mpr rfl)

theorem shape_of_sizes (h : op.Accepts inputs [out]) {shape : Shape} {s : SymShape}
    (hsizes : ∀ n ∈ shape, n < sizeLimit) (hs : s = .ofShape shape)
    (hout : s = .ofShape out.shape) :
    out.shape = shape :=
  SymShape.ofShape_injective (fun _ => h.fits_single.lt_sizeLimit) hsizes (hout.symm.trans hs)

theorem shape_eq (h : op.Accepts inputs [out]) {x : Value} (hx : x.shape.Fits) {s : SymShape}
    (hs : s = .ofShape x.shape) (hout : s = .ofShape out.shape) : out.shape = x.shape :=
  h.shape_of_sizes (fun _ => hx.lt_sizeLimit) hs hout

theorem outputTypes (h : op.Accepts inputs outputs) :
    op.outputTypes inputs = .ok (outputs.map Value.type) := by
  obtain ⟨_, -, htypes⟩ := bind_eq_ok.mp h.types
  exact htypes

/-- What the rule tells of the outputs is what they are. -/
theorem infer (h : op.Accepts inputs outputs)
    (hop : op.outputTypes inputs = op.inferredTypes inputs) :
    ∃ ws, op.infer (inputs.zipIdx.map op.describeInput) = .ok ws ∧
      List.Forall₂ (fun w out => w.dtype = out.dtype ∧ w.shape = .ofShape out.shape) ws
      outputs := by
  obtain ⟨ws, hws, -, htypes⟩ := inferredTypes_ok (hop ▸ h.outputTypes)
  refine ⟨ws, hws, (List.forall₂_map_right_iff.mp htypes).imp fun w out hw => ⟨hw.1, ?_⟩⟩
  exact (SymShape.toShape?_eq_some hw.2).1

theorem exists_single (h : op.Accepts inputs outputs)
    (hop : op.outputTypes inputs = op.inferredTypes inputs) (hcount : op.outputCount = 1) :
    ∃ out, outputs = [out] := by
  obtain ⟨ws, -, hlen, htypes⟩ := inferredTypes_ok (hop ▸ h.outputTypes)
  have hlen' := htypes.length_eq
  rw [List.length_map] at hlen'
  exact List.length_eq_one_iff.mp (by omega)

theorem infer_single (h : op.Accepts inputs [out])
    (hop : op.outputTypes inputs = op.inferredTypes inputs) :
    ∃ w, op.infer (inputs.zipIdx.map op.describeInput) = .ok [w] ∧ w.dtype = out.dtype ∧
      w.shape = .ofShape out.shape := by
  obtain ⟨ws, hws, houtputs⟩ := h.infer hop
  obtain ⟨w, _, hw, hnil, rfl⟩ := List.forall₂_cons_right_iff.mp houtputs
  cases List.forall₂_nil_right_iff.mp hnil
  exact ⟨w, hws, hw⟩

end Operator.Accepts

def Operator.told (op : Operator) (i : Nat) (v : Value) : SymTensor :=
  if op.valueInputs.contains i then v.toWhole else v.toShapeOnly

@[simp] theorem Operator.shape_told (op : Operator) (i : Nat) (v : Value) :
    (op.told i v).shape = .ofShape v.shape := by
  unfold told
  split_ifs <;> simp

@[simp] theorem Operator.dtype_told (op : Operator) (i : Nat) (v : Value) :
    (op.told i v).dtype = v.dtype := by
  unfold told
  split_ifs <;> simp

theorem Operator.find?_told (op : Operator) (inputs : ValueInputs) (i : Nat) :
    Inputs.find? (inputs.zipIdx.map op.describeInput) i = (Inputs.find? inputs i).map (op.told i) :=
  op.find?_describeInput inputs i

theorem Operator.demand_told (op : Operator) (hv : Inputs.find? inputs i = some v) :
    SymInputs.demand (inputs.zipIdx.map op.describeInput) i = .ok (op.told i v) := by
  rw [SymInputs.demand_eq_ok, op.find?_told, hv, Option.map_some]

namespace Kernel

variable {α : Type} {k : Kernel} {p : Outcome OpError Kernel}

/-- Whether neither preparing a kernel nor running it faults. -/
def Safe (p : Outcome OpError Kernel) : Prop := (p >>= fun k => k ()).NoFault

theorem safe_ok (h : (k ()).NoFault) : Safe (.ok k) := h

theorem safe_bind {x : Outcome OpError α} {f : α → Outcome OpError Kernel} (hx : x.NoFault)
    (hf : ∀ a, x = .ok a → Safe (f a)) : Safe (x >>= f) := by
  rw [Safe, bind_assoc]
  exact noFault_bind hx hf

theorem safe_demand {f : Value → Outcome OpError Kernel}
    (h : ∀ v, Inputs.find? inputs i = some v → Safe (f v)) : Safe (inputs.demand i >>= f) :=
  safe_bind (noFault_orRefuse _ _) fun v hv => h v (orRefuse_eq_ok.mp hv)

theorem noFault_single (outputs : List Value) : (single outputs).NoFault := by
  unfold single
  split <;> simp

theorem safe_single {f : Value → Outcome OpError Kernel}
    (h : ∀ out, outputs = [out] → Safe (f out)) : Safe (single outputs >>= f) :=
  safe_bind (noFault_single outputs) fun out hout => h out (eq_single hout)

theorem noFault_filled [Value.Stored α] (t : Tensor α) : (filled t).NoFault := noFault_ok _

section Typed

variable [Value.Stored α]

theorem noFault_typed (v : Value) : (typed α v).NoFault := noFault_orRefuse _ _

theorem noFault_typed? (v : Option Value) : (typed? α v).NoFault := by
  unfold typed?
  split
  · exact noFault_ok _
  · exact noFault_bind (noFault_typed _) fun _ _ => noFault_ok _

theorem noFault_element? (v : Option Value) : (element? α v).NoFault := by
  unfold element?
  split
  · exact noFault_ok _
  · refine noFault_bind (noFault_typed _) fun _ _ => ?_
    exact noFault_bind (noFault_orRefuse _ _) fun _ _ => noFault_ok _

theorem shape_of_typed [Value.Stored.Lawful α] {t : Tensor α} (h : typed α v = .ok t) :
    t.shape = v.shape := by
  rw [eq_wrap_of_typed h, Value.Stored.Lawful.shape_wrap]

theorem typed?_eq_ok [Value.Stored.Lawful α] {o : Option Value} {t : Tensor α}
    (h : typed? α o = .ok (some t)) : ∃ v, o = some v ∧ typed α v = .ok t := by
  cases o with
  | none => cases h
  | some v =>
    obtain ⟨u, hu, h⟩ := bind_eq_ok.mp h
    cases h
    exact ⟨v, rfl, hu⟩

end Typed

variable {x : Value}

theorem noFault_sameType
    {f : {α : Type} → [Value.Stored α] → Tensor α → Tensor α → Outcome OpError (Tensor α)}
    (hf : ∀ {α : Type} [Value.Stored α] [Value.Stored.Lawful α] (x' out' : Tensor α),
      x = Value.Stored.wrap x' → x'.shape = x.shape → out'.shape = out.shape →
        (f x' out').NoFault) : (sameType x out f ()).NoFault := by
  cases x <;> cases out
  case float.float x out => exact noFault_bind (hf x out rfl rfl rfl) fun t _ => noFault_filled t
  case int.int x out => exact noFault_bind (hf x out rfl rfl rfl) fun t _ => noFault_filled t
  all_goals exact noFault_ok _

theorem noFault_floatOnly
    {f : Tensor Float32 → Tensor Float32 → Outcome OpError (Tensor Float32)}
    (hf : ∀ x' out', x'.shape = x.shape → out'.shape = out.shape → (f x' out').NoFault) :
    (floatOnly x out f ()).NoFault := by
  cases x <;> cases out
  case float.float x out => exact noFault_bind (hf x out rfl rfl) fun t _ => noFault_filled t
  all_goals exact noFault_ok _

theorem noFault_intOutput {f : Tensor Int64 → Outcome OpError (Tensor Int64)}
    (hf : ∀ out', out'.shape = out.shape → (f out').NoFault) :
    (intOutput out f ()).NoFault := by
  cases out with
  | float out => exact noFault_ok _
  | int out => exact noFault_bind (hf out rfl) fun t _ => noFault_filled t

theorem noFault_anyOutput
    {f : {α : Type} → [Value.Stored α] → Tensor α → Outcome OpError (Tensor α)}
    (hf : ∀ {α : Type} [Value.Stored α] [Value.Stored.Lawful α] (out' : Tensor α),
      out = Value.Stored.wrap out' → out'.shape = out.shape → (f out').NoFault) :
    (anyOutput out f ()).NoFault := by
  cases out with
  | float out => exact noFault_bind (hf out rfl rfl) fun t _ => noFault_filled t
  | int out => exact noFault_bind (hf out rfl rfl) fun t _ => noFault_filled t

theorem noFault_copy (x out : Value) : (copy x out ()).NoFault :=
  noFault_sameType fun _ _ _ _ _ => noFault_bind (noFault_refuseIf _ _) fun _ _ => noFault_ok _

end Kernel

namespace ValueInputs

theorem noFault_findInts? (inputs : ValueInputs) (i : Nat) : (inputs.findInts? i).NoFault := by
  unfold findInts?
  split
  · exact noFault_ok _
  · refine noFault_bind (noFault_mapError _ ?_) fun _ _ => noFault_ok _
    refine noFault_bind (noFault_orRefuse _ _) fun _ _ => ?_
    exact noFault_bind (noFault_refuseIf _ _) fun _ _ => noFault_ok _

theorem noFault_findInt? (inputs : ValueInputs) (i : Nat) : (inputs.findInt? i).NoFault := by
  refine noFault_bind (noFault_findInts? inputs i) fun o _ => ?_
  split <;> simp

end ValueInputs

theorem Axis.noFault_resolve_value (h : v.shape.Fits) (axis : Int64) :
    ((resolve v.rank axis).mapError OpError.ofRule).NoFault :=
  noFault_mapError _ (noFault_resolve (h.rank_lt.trans (by decide)) axis)

theorem Axis.noFault_resolveAll_value (h : v.shape.Fits) (axes : List Int64) :
    ((resolveAll v.rank axes).mapError OpError.ofRule).NoFault :=
  noFault_mapError _ (noFault_resolveAll (h.rank_lt.trans (by decide)) axes)

theorem Operator.int_of_dtype {op : Operator} (h : (op.told i v).dtype = .int) :
    ∃ t, v = .int t := by
  rw [dtype_told] at h
  cases v with
  | float t => cases h
  | int t => exact ⟨t, rfl⟩

theorem Operator.elements_told {op : Operator} (hi : op.valueInputs.contains i = true)
    {t : Tensor Int64} (ht : t.shape.length ≤ 1) :
    (op.told i (.int t)).elements = some (t.data.map .int) := by
  have hrank : (Value.int t).rank ≤ SymTensor.maxRank := ht
  rw [told, if_pos hi, Value.elements_toWhole, if_pos hrank]
  rfl

theorem Operator.ints?_told {op : Operator} (hi : op.valueInputs.contains i = true)
    {t : Tensor Int64}
    (ht : t.shape.length ≤ 1) : (op.told i (.int t)).ints? = some t.data := by
  rw [SymTensor.ints?, elements_told hi ht, Option.bind_some, List.mapM_map]
  exact Option.mapM_eq_some.mpr (List.forall₂_same.mpr fun _ _ => rfl)

theorem ValueInputs.findInts?_vector {t : Tensor Int64}
    (ht : Inputs.find? inputs i = some (.int t))
    (hrank : t.shape.length ≤ 1) : inputs.findInts? i = .ok (some t.data) := by
  have hints : (Value.int t).toInts = .ok t.data := by
    have hcast : ((Value.int t).cast Int64 : Outcome CastError _) = .ok t := rfl
    rw [Value.toInts, hcast, ok_bind, refuseIf_neg (by simpa [Tensor.rank] using hrank)]
    rfl
  rw [findInts?, ht]
  dsimp only
  rw [hints]
  rfl

theorem ValueInputs.vector_of_findInts? {ns : List Int64} (h : inputs.findInts? i = .ok (some ns)) :
    ∃ t : Tensor Int64, Inputs.find? inputs i = some (.int t) ∧ t.shape.length ≤ 1 ∧
      t.data = ns := by
  unfold findInts? at h
  split at h
  · cases h
  · next v hv =>
    obtain ⟨_, hints, h⟩ := bind_eq_ok.mp h
    cases h
    obtain ⟨t, hcast, hints⟩ := bind_eq_ok.mp (mapError_eq_ok.mp hints)
    obtain ⟨_, hrank, hints⟩ := bind_eq_ok.mp hints
    cases hints
    obtain rfl := Value.eq_int_of_cast hcast
    exact ⟨t, hv, not_lt.mp (refuseIf_eq_ok.mp hrank), rfl⟩

end TensorGraph
