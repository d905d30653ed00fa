import TensorGraph.Proofs.Kernels.Dispatch
import TensorGraph.Proofs.Kernels.Elementwise
import TensorGraph.Proofs.Kernels.Making
import TensorGraph.Proofs.Kernels.Reduction
import TensorGraph.Proofs.Rules.Operators

/-! What inference knows of the outputs of an operator holds of the values that a run computes.
Where a run picks elements of a vector, its kernel has looked at every index, since the result is
empty only if there are none. -/

namespace TensorGraph

open Outcome Kernel SymTensor

variable {ε : Type} {names : Names} {sym : SymInputs} {draws : Draws} {inputs : ValueInputs}
  {ts : List SymTensor} {types : List ValueType} {zeroed outputs : List Value}

/-- The kernel of an operator whose rule computes elements gives the elements that are listed. -/
theorem Operator.lists (op : Operator) (hfolds : op.folds = true)
    (h : List.Forall₂ (Option.Rel (Sound names)) sym inputs) (hts : op.infer sym = .ok ts)
    (ho : List.Forall₂ (Expects names) ts outputs) :
    PreparesLists names ts (op.prepare draws inputs outputs) := by
  cases op with
  | binary f => exact f.lists hfolds h hts ho
  | cast wanted => exact Cast.lists h hts ho
  | castLike => exact Cast.lists_like h hts ho
  | concat op => exact op.lists h hts ho
  | constantOfShape op => exact op.lists hts ho
  | expand => exact Expand.lists h hts ho
  | flatten op => exact Reshaping.lists h (keepsFirst_flatten hts) ho
  | gather op => exact op.lists h hts ho
  | identity => exact Reshaping.lists h (keepsFirst_identity hts) ho
  | range => exact Range.lists h hts ho
  | reduce op => exact op.lists h hts ho
  | reshape op => exact Reshaping.lists h (keepsFirst_reshape hts) ho
  | shapeOf op => exact op.lists h hts ho
  | sizeOf => exact SizeOf.lists h hts ho
  | slice => exact Slice.lists h hts ho
  | split op => exact op.lists h hts ho
  | squeeze => exact Reshaping.lists h (keepsFirst_squeeze hts) ho
  | transpose op => exact op.lists h hts ho
  | unary f => exact f.lists hfolds h hts ho
  | unsqueeze => exact Reshaping.lists h (keepsFirst_unsqueeze hts) ho
  | variadic f => exact f.lists hfolds h hts ho
  | select => exact Where.lists h hts ho
  | argReduce | batchNormalization | clip | compress | conv | convTranspose | cumSum | depthToSpace
  | eyeLike | gatherElements | gatherND | gemm | globalPool | instanceNormalization
  | layerNormalization | lrn | matMul | nonZero | oneHot | pad | pool | random | resize
  | scatterElements | scatterND | softmax | spaceToDepth | tile | topK | trilu => cases hfolds

def Operator.known (op : Operator) (ts : List SymTensor) : List SymTensor :=
  if op.folds then ts else ts.map (·.clearElements)

theorem Gather.picks_of_infer {op : Gather} (h : List.Forall₂ (Option.Rel (Sound names)) sym inputs)
    (hts : op.infer sym = .ok ts) : Picks sym := by
  intro x t es cs hx ht hes hcs hrank n hn
  obtain ⟨s, hs, hts⟩ := bind_eq_ok.mp hts
  obtain ⟨u, hu, hts⟩ := bind_eq_ok.mp hts
  obtain ⟨_, _, hts⟩ := bind_eq_ok.mp hts
  obtain rfl : s = x := Option.some.inj ((SymInputs.demand_eq_ok.mp hs).symm.trans hx)
  obtain rfl : u = t := Option.some.inj ((SymInputs.demand_eq_ok.mp hu).symm.trans ht)
  obtain ⟨v, -, hv⟩ := Sound.of_find? h hx
  obtain ⟨w, -, hw⟩ := Sound.of_find? h ht
  obtain ⟨ds, hds, -⟩ := hv.tracked.rank_le hes
  obtain ⟨ids, hids, -⟩ := hw.tracked.rank_le hcs
  have hlen : ds.length = 1 := by simpa [rank?, hds, SymShape.rank?, SymShape.dims?] using hrank
  simp only [hds, hids, hes, hcs, hlen, if_true] at hts
  obtain ⟨dim, _, hts⟩ := bind_eq_ok.mp hts
  obtain ⟨r, hr, _⟩ := bind_eq_ok.mp hts
  obtain ⟨j, hj⟩ := List.getElem?_of_mem hn
  have hmem : (SymElement.int n, j) ∈ cs.zipIdx := List.mem_zipIdx_iff_getElem?.mpr hj
  obtain ⟨a, b, hpick⟩ := step_of_foldlM hr hmem
  obtain ⟨k, hk, -⟩ := bind_eq_ok.mp hpick
  exact ⟨k, mapError_eq_ok.mp hk⟩

theorem Shape.volume_of_mem_zero {shape : Shape} (h : 0 ∈ shape) : shape.volume = 0 := by
  induction shape with
  | nil => cases h
  | cons d ds ih =>
    rcases List.mem_cons.mp h with rfl | h
    · exact Nat.zero_mul _
    · rw [volume, ih h, Nat.mul_zero]

theorem Layout.checkedCount_pair {a b n : Nat} (h : (checkedCount [a, b] : Outcome ε Nat) = .ok n) :
    a * b < sizeLimit := by
  obtain ⟨m, hm, h⟩ := bind_eq_ok.mp h
  obtain ⟨k, hk, -⟩ := bind_eq_ok.mp h
  obtain ⟨-, rfl⟩ := checkSize_eq_ok.mp hm
  simpa using (checkSize_eq_ok.mp hk).1

theorem Value.zeros_eq_ok {ty : ValueType} {v : Value} (h : (zeros ty : Outcome ε Value) = .ok v) :
    v.type = ty ∧ ty.shape.length * Shape.entryBytes < byteLimit ∧
      ∃ n, (Layout.checkedCount ty.shape : Outcome ε Nat) = .ok n := by
  obtain ⟨dtype, shape⟩ := ty
  cases dtype <;>
  · obtain ⟨t, ht, h⟩ := bind_eq_ok.mp h
    obtain ⟨_, hroom, ht⟩ := bind_eq_ok.mp ht
    obtain ⟨n, hn, ht⟩ := bind_eq_ok.mp ht
    obtain ⟨_, _, ht⟩ := bind_eq_ok.mp ht
    cases h
    cases ht
    exact ⟨rfl, demand_eq_ok.mp hroom, n, hn⟩

theorem Value.types_of_zeros {types : List ValueType} {zeroed : List Value}
    (h : (types.mapM zeros : Outcome ε (List Value)) = .ok zeroed) :
    zeroed.map Value.type = types := by
  rw [← List.forall₂_eq_eq_eq, List.forall₂_map_left_iff]
  exact (mapM_eq_ok.mp h).flip.imp fun v ty hv => (zeros_eq_ok hv).1

/-- Operators that have the same types of outputs, and for outputs of these types make the same
calls, give the same outputs. -/
theorem Chain.apply_congr {op op' : Operator} {inputs inputs' : ValueInputs}
    (htypes : op.checkedTypes inputs = op'.checkedTypes inputs')
    (hcall : ∀ outputs, op.checkedTypes inputs = .ok (outputs.map Value.type) →
      op.call .none inputs outputs = op'.call .none inputs' outputs) (chain : Chain) :
    chain.apply op inputs = chain.apply op' inputs' := by
  rw [apply, apply, applyDrawing, applyDrawing, ← htypes]
  refine bind_congr_ok fun types hok => bind_congr_ok fun outputs hzeros => ?_
  have htypes := hok.trans (congrArg _ (Value.types_of_zeros hzeros).symm)
  rw [dispatch_congr .none inputs outputs (hcall outputs htypes)]

theorem Value.Representable.of_zeros {v : Value} {ty : ValueType}
    (h : (zeros ty : Outcome ε Value) = .ok v) (hsizes : ∀ n ∈ ty.shape, n < sizeLimit) :
    v.Representable := by
  obtain ⟨rfl, hrank, -⟩ := zeros_eq_ok h
  exact ⟨hsizes, hrank⟩

theorem Value.Representable.of_type {v w : Value} (h : v.Representable) (htype : w.type = v.type) :
    w.Representable := by
  have hshape : w.shape = v.shape := congrArg ValueType.shape htype
  exact ⟨hshape ▸ h.sizes, hshape ▸ h.rank⟩

theorem NonZero.count_le (x : Value) : count x ≤ x.shape.volume := by
  cases x with
  | float x | int x =>
    refine (List.length_filterMap_le _ _).trans ?_
    rw [List.length_zip, Index.length_all, x.length_data, Nat.min_self]
    exact Nat.le_refl _

theorem Compress.length_selected_le (condition : List Int64) :
    (selected condition).length ≤ condition.length := by
  refine (List.length_filterMap_le _ _).trans ?_
  rw [List.length_zipIdx]

theorem Value.Representable.of_demand (hinputs : ∀ v ∈ Inputs.given inputs, v.Representable)
    {i : Nat} {v : Value} (hv : inputs.demand i = .ok v) : v.Representable := by
  rw [ValueInputs.demand, orRefuse_eq_ok, Inputs.find?, Option.join_eq_some_iff] at hv
  exact hinputs v (List.mem_filterMap.mpr ⟨some v, List.mem_of_getElem? hv, rfl⟩)

theorem NonZero.outputTypes_sizes (hinputs : ∀ v ∈ Inputs.given inputs, v.Representable)
    (h : outputTypes inputs = .ok types)
    (hzeroed : (types.mapM Value.zeros : Outcome ε (List Value)) = .ok zeroed) :
    ∀ ty ∈ types, ∀ n ∈ ty.shape, n < sizeLimit := by
  obtain ⟨x, hx, h⟩ := bind_eq_ok.mp h
  cases h
  obtain ⟨v, vs, rfl, hv, -⟩ := mapM_cons_eq_ok hzeroed
  obtain ⟨-, -, n, hn⟩ := Value.zeros_eq_ok hv
  have hpair := Layout.checkedCount_pair hn
  intro ty hty n hn
  rw [List.mem_singleton.mp hty] at hn
  simp only [List.mem_cons, List.not_mem_nil, or_false] at hn
  rcases hn with rfl | rfl
  · exact (Value.Representable.of_demand hinputs hx).rank_lt
  · -- a tensor without dimensions has one element; otherwise the rank is positive
    rcases Nat.eq_zero_or_pos x.rank with hzero | hpos
    · have hle := count_le x
      rw [List.length_eq_zero_iff.mp hzero] at hle
      exact Nat.lt_of_le_of_lt hle (by decide)
    · exact Nat.lt_of_le_of_lt (Nat.le_mul_of_pos_left _ hpos) hpair

theorem Compress.outputTypes_sizes {op : Compress}
    (hinputs : ∀ v ∈ Inputs.given inputs, v.Representable) (h : op.outputTypes inputs = .ok types) :
    ∀ ty ∈ types, ∀ n ∈ ty.shape, n < sizeLimit := by
  obtain ⟨x, hx, h⟩ := bind_eq_ok.mp h
  obtain ⟨v, hv, h⟩ := bind_eq_ok.mp h
  obtain ⟨condition, hcondition, h⟩ := bind_eq_ok.mp h
  obtain ⟨_, hrank, h⟩ := bind_eq_ok.mp h
  obtain ⟨dim, _, h⟩ := bind_eq_ok.mp h
  obtain ⟨_, _, h⟩ := bind_eq_ok.mp h
  cases h
  obtain rfl := Value.eq_int_of_cast (mapError_eq_ok.mp hcondition)
  rw [refuseIf_eq_ok, not_not] at hrank
  obtain ⟨k, hk⟩ := List.length_eq_one_iff.mp hrank
  have hcount : (selected condition.data).length < sizeLimit := by
    have hle := length_selected_le condition.data
    rw [condition.length_data, hk, Shape.volume, Shape.volume, Nat.mul_one] at hle
    exact hle.trans_lt
      ((Value.Representable.of_demand hinputs hv).sizes k (by simp [Value.shape, hk]))
  intro ty hty n hn
  rw [List.mem_singleton.mp hty] at hn
  cases dim with
  | none =>
    rw [List.mem_singleton.mp hn]
    exact hcount
  | some dim =>
    rcases List.mem_or_eq_of_mem_set hn with hn | rfl
    · exact (Value.Representable.of_demand hinputs hx).sizes n hn
    · exact hcount

theorem Operator.inferredTypes_sizes {op : Operator} (h : op.inferredTypes inputs = .ok types) :
    ∀ ty ∈ types, ∀ n ∈ ty.shape, n < sizeLimit := by
  intro ty hty
  obtain ⟨ws, -, -, hws⟩ := inferredTypes_ok h
  obtain ⟨i, hi⟩ := List.getElem?_of_mem hty
  obtain ⟨w, -, -, hshape⟩ := Related.get_right hws hi
  exact (SymShape.toShape?_eq_some hshape).2

theorem Operator.outputTypes_sizes {op : Operator}
    (hinputs : ∀ v ∈ Inputs.given inputs, v.Representable) (h : op.outputTypes inputs = .ok types)
    (hzeroed : (types.mapM Value.zeros : Outcome ε (List Value)) = .ok zeroed) :
    ∀ ty ∈ types, ∀ n ∈ ty.shape, n < sizeLimit := by
  by_cases hnonZero : op = nonZero
  · subst hnonZero
    exact NonZero.outputTypes_sizes hinputs h hzeroed
  by_cases hcompress : ∃ c, op = compress c
  · obtain ⟨c, rfl⟩ := hcompress
    exact Compress.outputTypes_sizes hinputs h
  · exact @inferredTypes_sizes _ _ op (by cases op <;> first | exact h | simp_all)

namespace SymTensor.Expects

variable {t : SymTensor} {v w : Value}

theorem of_type (h : Expects names t v) (htype : v.type = w.type) : Expects names t w :=
  ⟨htype ▸ h.fits, h.representable.of_type htype.symm⟩

theorem clearElements (h : Expects names t v) : Expects names t.clearElements v :=
  ⟨h.fits.clearElements, h.representable⟩

theorem sound (h : Expects names t v) (hv : t.Lists names v.elements) : Sound names t v :=
  sound_of_lists h.fits rfl h.representable hv

end SymTensor.Expects

namespace Operator

theorem picksInside_of_infer {op : Operator}
    (h : List.Forall₂ (Option.Rel (Sound names)) sym inputs) (hts : op.infer sym = .ok ts) :
    op.PicksInside sym := by
  cases op with
  | gather op => exact Gather.picks_of_infer h hts
  | _ => trivial

theorem representable_of_sound (h : List.Forall₂ (Option.Rel (Sound names)) sym inputs) :
    ∀ v ∈ Inputs.given inputs, v.Representable := by
  intro v hv
  obtain ⟨o, ho, rfl⟩ := List.mem_filterMap.mp hv
  obtain ⟨i, hi⟩ := List.getElem?_of_mem ho
  obtain ⟨a, -, hav⟩ := Related.get_right h hi
  cases hav with
  | some hav => exact hav.representable

/-- The zeros that outputs start from have the types that inference expects. -/
theorem expects (op : Operator) (h : List.Forall₂ (Option.Rel (Sound names)) sym inputs)
    (hkept : op.KeepsTarget names sym inputs) (hts : op.infer sym = .ok ts)
    (htypes : op.outputTypes inputs = .ok types)
    (hzeroed : (types.mapM Value.zeros : Outcome ε (List Value)) = .ok zeroed) :
    List.Forall₂ (Expects names) ts zeroed := by
  have hfits := op.outputTypes_related h hkept (picksInside_of_infer h hts) hts htypes
  have hsizes := outputTypes_sizes (representable_of_sound h) htypes hzeroed
  have hzeros := (List.forall₂_and_left types zeroed).mpr ⟨hsizes, mapM_eq_ok.mp hzeroed⟩
  refine Related.trans hfits hzeros fun t ty v hfit hv => ?_
  exact ⟨(Value.zeros_eq_ok hv.2).1 ▸ hfit, .of_zeros hv.2 hv.1⟩

theorem elements_of_empty (hzeroed : (types.mapM Value.zeros : Outcome ε (List Value)) = .ok zeroed)
    (hempty : types.all (·.shape.contains 0) = true) : ∀ v ∈ zeroed, v.elements = [] := by
  intro v hv
  obtain ⟨i, hi⟩ := List.getElem?_of_mem hv
  obtain ⟨ty, hty, hzero⟩ := Related.get_right (mapM_eq_ok.mp hzeroed) hi
  obtain ⟨rfl, -, -⟩ := Value.zeros_eq_ok hzero
  have hmem : 0 ∈ v.type.shape := by
    simpa using List.all_eq_true.mp hempty _ (List.mem_of_getElem? hty)
  rw [List.eq_nil_iff_length_eq_zero, v.length_elements]
  exact Shape.volume_of_mem_zero hmem

/-- What inference keeps of the outputs of a layer is sound for what a run computes of them: zeros
where all of them are empty, and else what the reference backend gives. -/
theorem sound (op : Operator) (h : List.Forall₂ (Option.Rel (Sound names)) sym inputs)
    (hkept : op.KeepsTarget names sym inputs) (hts : op.infer sym = .ok ts)
    (htypes : op.outputTypes inputs = .ok types)
    (hzeroed : (types.mapM Value.zeros : Outcome ε (List Value)) = .ok zeroed)
    (hrun : types.all (·.shape.contains 0) = true ∧ outputs = zeroed ∨
      ∃ i, Chain.reference.dispatch op draws inputs zeroed = .ok (some (i, outputs))) :
    List.Forall₂ (Sound names) (op.known ts) outputs := by
  have hzeros := op.expects h hkept hts htypes hzeroed
  have htype : outputs.map Value.type = zeroed.map Value.type := by
    rcases hrun with ⟨-, rfl⟩ | ⟨i, hi⟩
    · rfl
    · exact Chain.types_of_dispatch_reference draws inputs zeroed hi
  have hexpects :=
    Related.trans hzeros (Related.of_map_eq htype.symm) fun t v w hv hvw => hv.of_type hvw
  by_cases hfolds : op.folds = true
  · rw [known, if_pos hfolds]
    have hlists : List.Forall₂ (fun t v => t.Lists names v.elements) ts outputs := by
      rcases hrun with ⟨hempty, rfl⟩ | ⟨i, hi⟩
      · refine List.forall₂_iff_get.mpr ⟨hzeros.length_eq, fun i hi hj => ?_⟩
        have hmem := List.get_mem outputs ⟨i, hj⟩
        rw [elements_of_empty hzeroed hempty _ hmem]
        intro i c hc
        cases hc
      · rw [Chain.dispatch_reference] at hi
        obtain ⟨k, hk, hi⟩ := bind_eq_ok.mp hi
        obtain ⟨r, hr, hi⟩ := bind_eq_ok.mp hi
        obtain ⟨vs, rfl, hvs⟩ := Option.map_eq_some_iff.mp (ok.inj hi)
        cases hvs
        exact op.lists hfolds h hts hzeros k hk _ hr _ rfl
    exact (Related.and hexpects hlists).imp fun t v hv => hv.1.sound hv.2
  · rw [known, if_neg hfolds, List.forall₂_map_left_iff]
    exact hexpects.imp fun t v hv => hv.clearElements.sound (lists_clearElements t)

end Operator

namespace Gather

theorem types_vector {op : Gather} {v w : Value} (hv : Inputs.find? inputs 0 = some v)
    (hw : Inputs.find? inputs 1 = some w) (hrank : v.shape.length = 1) (hword : w.Representable)
    (h : (Operator.gather op).outputTypes inputs = .ok types) :
    ∃ dtype, types = [⟨dtype, w.shape⟩] := by
  obtain ⟨ws, hws, -, htypes⟩ := Operator.inferredTypes_ok h
  simp only [Operator.infer, infer_eq] at hws
  obtain ⟨x, hx, hws⟩ := bind_eq_ok.mp hws
  obtain ⟨t, ht, hws⟩ := bind_eq_ok.mp hws
  obtain ⟨_, _, hws⟩ := bind_eq_ok.mp hws
  rw [SymInputs.demand_eq_ok, Operator.find?_describeInput, hv] at hx
  rw [SymInputs.demand_eq_ok, Operator.find?_describeInput, hw] at ht
  cases hx
  cases ht
  obtain ⟨dim, r, hdim, rfl, hdtype, hshape⟩ := result_ok hws
  cases htypes with
  | @cons _ ty _ _ hty hnil =>
    cases hnil
    have hzero : dim = 0 := by
      have hlt := Axis.resolve_lt hdim
      rw [List.length_map, hrank] at hlt
      omega
    have hids : r.shape = .ofShape w.shape := by
      rw [hshape, hzero, List.take_zero, List.nil_append, Nat.zero_add,
        List.drop_eq_nil_of_le (by rw [List.length_map, hrank]), List.append_nil]
      rfl
    obtain ⟨heq, hsizes⟩ := SymShape.toShape?_eq_some hty.2
    rw [hids] at heq
    rw [SymShape.ofShape_injective hword.sizes hsizes heq]
    exact ⟨ty.dtype, rfl⟩

theorem picks_of_run {op : Gather} (h : List.Forall₂ (Option.Rel (Sound names)) sym inputs)
    (htypes : (Operator.gather op).outputTypes inputs = .ok types)
    (hrun : types.all (·.shape.contains 0) = true ∨ ∃ i,
      Chain.reference.dispatch (.gather op) draws inputs zeroed = .ok (some (i, outputs))) :
    Picks sym := by
  intro x t es cs hx ht hes hcs hrank n hn
  obtain ⟨v, hv, hxv⟩ := Sound.of_find? h hx
  obtain ⟨w, hw, htw⟩ := Sound.of_find? h ht
  have hvector : v.shape.length = 1 := by simpa using hxv.describes.shape.rank? 1 hrank
  have hcovers := htw.describes.elements cs hcs
  obtain ⟨j, hj⟩ := List.getElem?_of_mem hn
  obtain ⟨e, he, hne⟩ := Related.get_left hcovers hj
  obtain rfl := SymElement.covers_int.mp hne
  obtain ⟨dtype, rfl⟩ := types_vector hv hw hvector htw.representable htypes
  rcases hrun with hempty | ⟨i, hi⟩
  · have hzero : 0 ∈ w.shape := by simpa using hempty
    have hnil : w.elements = [] := by
      rw [List.eq_nil_iff_length_eq_zero, w.length_elements, Shape.volume_of_mem_zero hzero]
    simp [hnil] at he
  · rw [Chain.dispatch_reference] at hi
    obtain ⟨k, hk, hi⟩ := bind_eq_ok.mp hi
    obtain ⟨r, hr, hi⟩ := bind_eq_ok.mp hi
    obtain ⟨vs, rfl, hvs⟩ := Option.map_eq_some_iff.mp (ok.inj hi)
    obtain ⟨v', hv', hk⟩ := bind_eq_ok.mp hk
    obtain ⟨w', hw', hk⟩ := bind_eq_ok.mp hk
    obtain ⟨dim, hdim, hk⟩ := bind_eq_ok.mp hk
    obtain ⟨out, _, hk⟩ := bind_eq_ok.mp hk
    rw [ValueInputs.demand, hv] at hv'
    rw [ValueInputs.demand, hw] at hw'
    cases hv'
    cases hw'
    cases hk
    obtain ⟨indices, hindices, hkernel⟩ := bind_eq_ok.mp hr
    obtain rfl := eq_wrap_of_typed hindices
    have hmem : n ∈ indices.data := by
      obtain ⟨m, hm, hmn⟩ := Tensor.getElem?_elements (x := indices) he
      cases hmn
      exact List.mem_of_getElem? hm
    obtain rfl : dim = 0 := by
      have hlt := Axis.resolve_lt (mapError_eq_ok.mp hdim)
      rw [Value.rank, hvector] at hlt
      omega
    rw [hxv.length_eq hes]
    cases v <;> cases out
    case float.float x out =>
      obtain ⟨y, hy, -⟩ := bind_eq_ok.mp hkernel
      simpa [Value.elements] using resolve_of_fill (Nat.le_of_eq hvector) hy n hmem
    case int.int x out =>
      obtain ⟨y, hy, -⟩ := bind_eq_ok.mp hkernel
      simpa [Value.elements] using resolve_of_fill (Nat.le_of_eq hvector) hy n hmem
    all_goals cases hkernel

end Gather

theorem Operator.picksInside_of_run {op : Operator}
    (h : List.Forall₂ (Option.Rel (Sound names)) sym inputs)
    (htypes : op.outputTypes inputs = .ok types)
    (hrun : types.all (·.shape.contains 0) = true ∨ ∃ i,
      Chain.reference.dispatch op draws inputs zeroed = .ok (some (i, outputs))) :
      op.PicksInside sym := by
  cases op with
  | gather op => exact Gather.picks_of_run h htypes hrun
  | _ => trivial

end TensorGraph
