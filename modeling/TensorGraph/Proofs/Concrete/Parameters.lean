import Mathlib.Algebra.GroupWithZero.Nat
import Mathlib.Algebra.Order.BigOperators.Group.List
import Mathlib.Algebra.Order.Group.Nat
import TensorGraph.Proofs.Concrete.Rules

/-! Rules that read axes, bounds or indices from the elements of their inputs do not fault on what
is tracked of given values where they give the types of outputs. -/

namespace TensorGraph

open Outcome SymTensor ValueInputs

variable {inputs : ValueInputs}

namespace Value

variable {v : Value}

/-- The integers that a value lists are tracked, or none of them. -/
theorem ints?_toSymbolic (v : Value) :
    v.toSymbolic.ints? = v.toWhole.ints? ∨ v.toSymbolic.ints? = none := by
  rcases v.toSymbolic_cases with hsame | hnone
  · exact .inl (by rw [hsame])
  · exact .inr (by rw [SymTensor.ints?, hnone]; rfl)

theorem single?_toSymbolic (v : Value) : v.toSymbolic.single? = v.toWhole.single? := by
  rcases v.toSymbolic_cases with hsame | hnone
  · rw [hsame]
  have hleft : v.toSymbolic.single? = none := by rw [SymTensor.single?, hnone]
  rw [hleft, SymTensor.single?, elements_toWhole]
  split_ifs with hrank
  · have hmany : ∀ e, v.elements ≠ [e] := by
      intro e he
      have hvolume : v.shape.volume = 1 := by rw [← v.length_elements, he]; rfl
      rw [elements_toSymbolic] at hnone
      rcases hshape : v.shape with _ | ⟨n, _ | ⟨m, ns⟩⟩
      · rw [hshape] at hnone
        cases hnone
      · obtain rfl : n = 1 := by simpa [hshape, Shape.volume] using hvolume
        rw [hshape] at hnone
        cases hnone
      · simp [rank, hshape, maxRank] at hrank
    split
    · next he => exact absurd (Option.some.inj he) (hmany _)
    · rfl
  · rfl

end Value

namespace Range

theorem infer_lasts : Lasts (infer inputs.symbolic) (infer (inputs.described [0, 1, 2])) := by
  rw [infer_eq, infer_eq]
  refine endures_demandWhole rfl fun start _ => endures_demandWhole rfl fun limit _ =>
    endures_demandWhole rfl fun delta _ => ?_
  simp only [demandSingle, Value.dtype_toSymbolic, Value.dtype_toWhole, Value.shape_toSymbolic,
    Value.shape_toWhole, Value.single?_toSymbolic]
  exact lasts_refl _

end Range

theorem Reduce.infer_lasts (op : Reduce) :
    Lasts (op.infer inputs.symbolic) (op.infer (inputs.described [1])) := by
  rw [infer_eq, infer_eq]
  refine endures_demand rfl fun x _ => ?_
  have hshape : ∀ axes, op.outputShape x.toSymbolic axes = op.outputShape x.toShapeOnly axes := by
    intro axes
    cases axes <;> simp [outputShape, rank?]
  have hsame : ∀ axes, Lasts
      (if axes = .keep then return [x.toSymbolic]
        else return [op.joined x.toSymbolic axes (← op.outputShape x.toSymbolic axes)])
      (if axes = .keep then return [x.toShapeOnly]
        else return [op.joined x.toShapeOnly axes (← op.outputShape x.toShapeOnly axes)]) := by
    intro axes
    split_ifs
    · exact lasts_ok _ _
    · rw [hshape]
      exact endures_bind_same fun _ _ => lasts_ok _ _
  dsimp only
  rw [find?_symbolic, find?_described]
  cases Inputs.find? inputs 1 with
  | none => exact hsame _
  | some v =>
    rcases v.ints?_toSymbolic with htracked | hnone
    · simpa [htracked] using hsame _
    · cases haxes : op.axes with
      | some axes => simpa [selectAxes, haxes] using hsame _
      | none =>
        -- of axes that are not tracked nothing but the rank of the result is used
        refine endures_of_noFault ?_ _
        simp only [Option.map_some, hnone, selectAxes, haxes, outputShape]
        cases x.toSymbolic.rank? <;> simp

namespace Squeeze

theorem outputShape_lasts (ds : List SymDim) (v : Option Value) :
    Lasts (outputShape ds (v.map Value.toSymbolic)) (outputShape ds (v.map Value.toWhole)) := by
  cases v with
  | none => exact lasts_refl _
  | some v =>
    simp only [Option.map_some, outputShape, v.demandIntVector_toSymbolic]
    refine endures_bind_same fun _ _ => ?_
    rcases v.ints?_toSymbolic with htracked | hnone
    · rw [htracked]
      cases v.toWhole.ints? with
      | none => exact lasts_ok _ _
      | some ns => exact lasts_refl _
    · rw [hnone]
      exact lasts_ok _ _

theorem infer_lasts : Lasts (infer inputs.symbolic) (infer (inputs.described [1])) := by
  refine endures_demand rfl fun x _ => ?_
  simp only [Value.shape_toSymbolic, Value.shape_toShapeOnly, SymShape.ofShape, find?_symbolic,
    find?_described]
  exact (outputShape_lasts _ _).bind fun _ _ _ _ => lasts_ok _ _

end Squeeze

namespace Unsqueeze

theorem outputShape_lasts (shape : Shape) {v : Value} (hv : v.Representable) {u : Unit}
    (hvector : v.toWhole.demandIntVector = .ok u) :
    Lasts (outputShape (.ofShape shape) v.toSymbolic) (outputShape (.ofShape shape) v.toWhole) := by
  rcases v.ints?_toSymbolic with htracked | hnone
  · simp only [SymShape.ofShape, outputShape, htracked, Value.shape_toSymbolic, Value.shape_toWhole]
    exact lasts_refl _
  obtain ⟨hdtype, s, hs⟩ := demandIntVector_eq_ok hvector
  have hsound : Sound (fun _ => none) v.toSymbolic v := Value.sound_toSymbolic hv
  obtain ⟨ns, hns, hlen⟩ := hsound.fitsWhole.ints_of_vector hdtype hs
  simp only [SymShape.ofShape, outputShape, hnone, hns]
  cases hn : (v.toSymbolic.shape.dim 0).value? with
  | none => exact lasts_ok _ _
  | some n =>
    refine endures_bind_right fun ones _ => endures_bind_right fun _ hroom => ?_
    have hfits := demand_eq_ok.mp hroom
    rw [hlen n hn] at hfits
    have hword : (shape.map SymDim.ofSize).length + sizeOfInt n < sizeLimit := by
      simp only [SymDim.bytes, byteLimit, sizeLimit] at hfits ⊢
      omega
    refine endures_of_noFault (noFault_bind (noFault_of_eq_ok (checkSize_eq_ok.mpr ⟨hword, rfl⟩))
      fun rank hrank => ?_) _
    rw [← (checkSize_eq_ok.mp hrank).2]
    exact noFault_of_eq_ok (SymShape.ofLargeRank_eq_ok hfits)

theorem infer_lasts (hinputs : ∀ v ∈ Inputs.given inputs, v.Representable) :
    Lasts (infer inputs.symbolic) (infer (inputs.described [1])) := by
  refine endures_demand rfl fun x _ => endures_demandWhole rfl fun v hv => ?_
  rw [v.demandIntVector_toSymbolic, x.shape_toSymbolic, x.shape_toShapeOnly]
  refine endures_bind_same fun _ hvector => ?_
  exact (outputShape_lasts _ (representable_of_find? hinputs hv) hvector).bind
    fun _ _ _ _ => lasts_ok _ _

end Unsqueeze

namespace Gather

theorem infer_lasts (op : Gather) (hinputs : ∀ v ∈ Inputs.given inputs, v.Representable) :
    Lasts (op.infer inputs.symbolic) (op.infer (inputs.described [])) := by
  rw [infer_eq, infer_eq]
  refine endures_demand rfl fun x hx => endures_demand rfl fun t _ => endures_refuseIf fun _ => ?_
  simp only [Value.shape_toSymbolic, Value.shape_toShapeOnly, SymShape.ofShape, result]
  refine endures_bind_same fun dim _ => endures_of_noFault ?_ _
  split
  · next elements entries helements _ =>
    split_ifs
    · have hlen := Value.length_le_maxElements (representable_of_find? hinputs hx) helements
      have hsmall : elements.length < intLimit := hlen.trans_lt (by decide)
      exact noFault_bind (noFault_foldlM (fun s e _ => noFault_pick hsmall s e) _)
        fun _ _ => noFault_ok _
    · exact noFault_ok _
  · exact noFault_ok _

end Gather

namespace Split

theorem sizes_endures (op : Split) (d : SymDim) (v : Option Value) :
    Endures (fun es cs => es = cs ∨ ∀ e ∈ es, e = .unknown)
      (op.sizes d (v.map Value.toSymbolic)) (op.sizes d (v.map Value.toWhole)) := by
  cases v with
  | none => exact (endures_refl _).mono fun _ _ => .inl
  | some v =>
    simp only [Option.map_some, sizes, listedSizes_eq]
    refine endures_refuseIf fun _ => v.toSizes_endures.bind fun s r hs _ => ?_
    rcases hs with rfl | ⟨ds, -, rfl⟩
    · exact (endures_refl _).mono fun _ _ => .inl
    · refine fun _ _ => ⟨?_, fun es hes => .inr ?_⟩
      · refine noFault_bind (noFault_refuseIf _ _) fun _ _ => ?_
        refine noFault_bind (noFault_refuseIf _ _) fun _ _ => ?_
        exact noFault_bind (noFault_refuseIf _ _) fun _ _ => noFault_ok _
      · obtain ⟨-, -, hes⟩ := bind_eq_ok.mp hes
        obtain ⟨-, -, hes⟩ := bind_eq_ok.mp hes
        obtain ⟨-, -, hes⟩ := bind_eq_ok.mp hes
        cases hes
        exact fun e he => List.eq_of_mem_replicate he

theorem pieces_lasts (x u : SymTensor) (ds cs : List SymDim) (dim : Nat) (sizes : List SymDim)
    (start : Option Nat) {ε : Type} :
    Lasts (pieces x ds dim start sizes : Outcome ε _) (pieces u cs dim start sizes :
      Outcome ε _) := by
  induction sizes generalizing start with
  | nil => exact lasts_refl _
  | cons size sizes ih =>
    rw [pieces_cons, pieces_cons]
    refine endures_bind_same fun next _ => ?_
    exact (ih next).bind fun _ _ _ _ => lasts_ok _ _

/-- The number of elements of a piece, which counts as none if it is unknown. -/
def extent (d : SymDim) : Nat := (d.value?.map sizeOfInt).getD 0

theorem noFault_nextStart {start : Option Nat} {size : SymDim}
    (h : start.getD 0 + extent size < sizeLimit) :
    (nextStart start size : Outcome ε _).NoFault := by
  unfold nextStart
  split
  · next s n hn =>
    rw [extent, hn] at h
    exact noFault_of_eq_ok (congrArg (some <$> ·) (checkSize_eq_ok.mpr ⟨h, rfl⟩))
  · exact noFault_ok _

theorem nextStart_le {start next : Option Nat} {size : SymDim}
    (h : (nextStart start size : Outcome ε _) = .ok next) :
    next.getD 0 ≤ start.getD 0 + extent size := by
  unfold nextStart at h
  split at h
  · next s n hn =>
    obtain ⟨m, hm, hnext⟩ := bind_eq_ok.mp h
    obtain ⟨-, rfl⟩ := checkSize_eq_ok.mp hm
    cases hnext
    rw [extent, hn]
    exact le_rfl
  · cases h
    exact Nat.zero_le _

/-- Pieces are found if the last one ends where a size can point to. -/
theorem noFault_pieces (x : SymTensor) (ds : List SymDim) (dim : Nat) {sizes : List SymDim}
    {start : Option Nat} (h : start.getD 0 + (sizes.map extent).sum < sizeLimit) :
    (pieces x ds dim start sizes : Outcome ε _).NoFault := by
  induction sizes generalizing start with
  | nil => exact noFault_ok _
  | cons size sizes ih =>
    rw [List.map_cons, List.sum_cons, ← Nat.add_assoc] at h
    rw [pieces_cons]
    refine noFault_bind (noFault_nextStart ((Nat.le_add_right _ _).trans_lt h)) fun next hnext => ?_
    have hle := nextStart_le hnext
    exact noFault_bind (ih (by omega)) fun _ _ => noFault_ok _

theorem sum_extent_le {sizes : List SymDim} {bound : Nat} (h : ∀ d ∈ sizes, extent d ≤ bound) :
    (sizes.map extent).sum ≤ sizes.length * bound := by
  have hsum := List.sum_le_card_nsmul (sizes.map extent) bound (by simpa using h)
  simpa using hsum

theorem sum_extent_of_unknown {sizes : List SymDim} (h : ∀ d ∈ sizes, d = .unknown) :
    (sizes.map extent).sum = 0 :=
  Nat.le_zero.mp (sum_extent_le fun d hd => (congrArg extent (h d hd)).le)

theorem infer_lasts (op : Split) :
    Lasts (op.infer inputs.symbolic) (op.infer (inputs.described [1])) := by
  refine endures_demand rfl fun x _ => endures_refuseIf fun _ => ?_
  simp only [Value.shape_toSymbolic, Value.shape_toShapeOnly, SymShape.ofShape, find?_symbolic,
    find?_described]
  refine endures_bind_same fun dim _ => ?_
  refine (op.sizes_endures _ _).bind fun es cs hs _ => ?_
  rcases hs with rfl | hunknown
  · exact pieces_lasts _ _ _ _ dim es _
  · refine endures_of_noFault (noFault_pieces _ _ dim ?_) _
    rw [sum_extent_of_unknown hunknown]
    decide

end Split

namespace Slice

theorem parameter_endures (v : Value) :
    Endures (fun l l' => l = l' ∨ l = none) (parameter v.toSymbolic) (parameter v.toWhole) := by
  simp only [parameter, Value.dtype_toSymbolic, Value.dtype_toWhole, Value.shape_toSymbolic,
    Value.shape_toWhole]
  refine endures_refuseIf fun _ => endures_bind_same fun _ _ => endures_ok ?_
  rcases v.toSymbolic_cases with hsame | hnone
  · exact .inl (by rw [hsame])
  · exact .inr (by rw [hnone]; rfl)

theorem optionalParameter_endures (v : Option Value) :
    Endures (fun l l' => l = l' ∨ l = some none) (optionalParameter (v.map Value.toSymbolic))
      (optionalParameter (v.map Value.toWhole)) := by
  cases v with
  | none => exact endures_ok (.inl rfl)
  | some v =>
    refine (parameter_endures v).bind fun l l' hl _ => endures_ok ?_
    exact hl.imp (congrArg some) (congrArg some)

theorem slice_without_step (d : SymDim) (start stop : Option Int64) :
    d.slice start stop none = .ok .unknown := by
  unfold SymDim.slice
  generalize d.value? = n
  cases n <;> cases start <;> cases stop <;> rfl

theorem cutRange_without_step (d : SymDim) {c : Cut} (h : c.step = none) :
    cutRange d c = .ok none := by
  unfold cutRange
  rw [h]
  generalize d.value? = n
  cases n <;> cases c.start <;> cases c.stop <;> rfl

theorem cutRange_lasts (v : Value) (t u : SymTensor) (range : Option SliceRange) : Lasts
    (match range with
      | none => return t
      | some r => do
        let positions ← (List.range r.len).mapM r.position
        return t.setLeading (positions.map v.toSymbolic.get) : Outcome RuleError SymTensor)
    (match range with
      | none => return u
      | some r => do
        let positions ← (List.range r.len).mapM r.position
        return u.setLeading (positions.map v.toShapeOnly.get) : Outcome RuleError SymTensor) := by
  cases range with
  | none => exact lasts_ok _ _
  | some r => exact endures_bind_same fun _ _ => lasts_ok _ _

theorem cutElements_lasts {v : Value} (hv : v.Representable) (ds : List SymDim) (cuts : List Cut)
    (t u : SymTensor) :
    Lasts (cutElements v.toSymbolic ds cuts t) (cutElements v.toShapeOnly ds cuts u) := by
  unfold cutElements
  rcases ds with _ | ⟨d, _ | ⟨e, ds⟩⟩
  · exact lasts_ok _ _
  · cases he : v.toSymbolic.elements with
    | none => exact lasts_ok _ _
    | some es =>
      simp only [v.elements_toShapeOnly hv he, List.length_replicate]
      cases cuts.getLast? with
      | none => exact cutRange_lasts v t u (some (SliceRange.full es.length))
      | some c => exact endures_bind_same fun range _ => cutRange_lasts v t u range
  · exact lasts_ok _ _

/-- The elements of a sliced vector are found where the last cut gives a range of which all
positions are found. -/
theorem noFault_cutElements {x : SymTensor} {ds : List SymDim} {cuts : List Cut}
    (output : SymTensor) (hlen : ∀ es, x.elements = some es → es.length < intLimit)
    (hcuts : ∀ c ∈ cuts, ∀ d, ds = [d] → (cutRange d c).NoFault ∧
      ∀ r, cutRange d c = .ok (some r) →
        ((List.range r.len).mapM r.position : Outcome RuleError (List Nat)).NoFault) :
    (cutElements x ds cuts output).NoFault := by
  unfold cutElements
  split
  · next d es hes =>
    cases hlast : cuts.getLast? with
    | none =>
      simp only [ok_bind]
      exact noFault_bind (SliceRange.noFault_full (hlen es hes)) fun _ _ => noFault_ok _
    | some c =>
      obtain ⟨hrange, hpositions⟩ := hcuts c (List.mem_of_getLast? hlast) d rfl
      refine noFault_bind hrange fun range hr => ?_
      cases range with
      | none => exact noFault_ok _
      | some r => exact noFault_bind (hpositions r hr) fun _ _ => noFault_ok _
  · exact noFault_ok _

theorem slicedSteps_endures (count : Nat) {steps steps' : Option (Option (List (Option Int64)))}
    (h : steps = steps' ∨ steps = some none) :
    Endures (fun s s' => s = s' ∨ ∀ step ∈ s, step = none) (slicedSteps count steps)
      (slicedSteps count steps') := by
  rcases h with rfl | rfl
  · exact (endures_refl _).mono fun _ _ => .inl
  · refine fun _ _ => ⟨noFault_ok _, fun s hs => .inr fun step hstep => ?_⟩
    cases hs
    exact List.eq_of_mem_replicate hstep

theorem cutAlong_lasts {v : Value} (hv : v.Representable) (ds : List SymDim)
    (starts stops : List (Option Int64)) {steps steps' : Option (Option (List (Option Int64)))}
    (hsteps : steps = steps' ∨ steps = some none) (dims : Option (List Nat)) :
    Lasts (cutAlong v.toSymbolic ds starts stops steps dims)
      (cutAlong v.toShapeOnly ds starts stops steps' dims) := by
  cases dims with
  | none => exact lasts_ok _ _
  | some dims =>
    refine endures_refuseIf fun _ =>
        (slicedSteps_endures starts.length hsteps).bind fun s s' hs _ => ?_
    rcases hs with rfl | hunknown
    · refine endures_bind_same fun es _ => ?_
      exact (cutElements_lasts hv _ _ _ _).bind fun _ _ _ _ => lasts_ok _ _
    · have hcuts : ∀ c ∈ zipCuts dims starts stops s, c.step = none :=
        fun c hc => hunknown _ (step_of_mem_zipCuts hc)
      refine endures_of_noFault (noFault_bind ?_ fun es _ => ?_) _
      · refine noFault_foldlM (fun out c hc => ?_) ds
        rw [hcuts c hc, slice_without_step]
        exact noFault_ok _
      · refine noFault_bind (noFault_cutElements _ (fun es hes => ?_) fun c hc d _ => ?_)
          fun _ _ => noFault_ok _
        · exact (Value.length_le_maxElements hv hes).trans_lt (by decide)
        · simp [cutRange_without_step d (hcuts c hc)]

theorem result_lasts {v : Value} (hv : v.Representable) {starts starts' stops stops' :
    Option (List (Option Int64))} (hstarts : starts = starts' ∨ starts = none)
    (hstops : stops = stops' ∨ stops = none)
    {axes axes' steps steps' : Option (Option (List (Option Int64)))}
    (haxes : axes = axes' ∨ axes = some none) (hsteps : steps = steps' ∨ steps = some none) :
    Lasts (result v.toSymbolic starts stops axes steps)
      (result v.toShapeOnly starts' stops' axes' steps') := by
  simp only [result, Value.shape_toSymbolic, Value.shape_toShapeOnly, SymShape.ofShape]
  cases starts with
  | none => exact lasts_ok _ _
  | some starts =>
    obtain rfl : some starts = starts' := by simpa using hstarts
    cases stops with
    | none => exact lasts_ok _ _
    | some stops =>
      obtain rfl : some stops = stops' := by simpa using hstops
      refine endures_refuseIf fun _ => ?_
      rcases haxes with rfl | rfl
      · exact endures_bind_same fun dims _ => cutAlong_lasts hv _ _ _ hsteps dims
      · exact lasts_ok _ _

theorem infer_lasts (hinputs : ∀ v ∈ Inputs.given inputs, v.Representable) :
    Lasts (infer inputs.symbolic) (infer (inputs.described [1, 2, 3, 4])) := by
  rw [infer_eq, infer_eq]
  refine endures_demand rfl fun x hx => endures_demandWhole rfl fun v _ => ?_
  refine (parameter_endures v).bind fun starts starts' hstarts _ => ?_
  refine endures_demandWhole rfl fun w _ => ?_
  refine (parameter_endures w).bind fun stops stops' hstops _ => ?_
  rw [find?_symbolic, find?_described, find?_symbolic, find?_described]
  refine (optionalParameter_endures _).bind fun axes axes' haxes _ => ?_
  refine (optionalParameter_endures _).bind fun steps steps' hsteps _ => ?_
  exact result_lasts (representable_of_find? hinputs hx) hstarts hstops haxes hsteps

end Slice

end TensorGraph
