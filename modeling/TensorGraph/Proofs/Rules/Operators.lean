import TensorGraph.Operator.Basic
import TensorGraph.Proofs.Rules.Elementwise
import TensorGraph.Proofs.Rules.Generation
import TensorGraph.Proofs.Rules.Indexing
import TensorGraph.Proofs.Rules.Joining
import TensorGraph.Proofs.Rules.Measuring
import TensorGraph.Proofs.Rules.Normalization
import TensorGraph.Proofs.Rules.Reduction
import TensorGraph.Proofs.Rules.Reshaping
import TensorGraph.Proofs.Rules.Resizing
import TensorGraph.Proofs.Rules.Slicing
import TensorGraph.Proofs.Rules.Spatial

/-! The shape rule of every operator, on what inference knows of the inputs, beside the types that a
run settles from the values of the inputs. -/

namespace TensorGraph

open SymTensor SymInputs

variable {names : Names} {sym : SymInputs} {inputs : ValueInputs}

namespace SymTensor.Sound

variable {t : SymTensor} {v : Value}

theorem fits (h : Sound names t v) : Fits names t v.toShapeOnly :=
  ⟨h.describes.dtype, h.describes.shape, h.tracked⟩

theorem fitsWhole (h : Sound names t v) : FitsWhole names t v.toWhole :=
  ⟨h.fits.congr_right (by simp) (by simp), v, rfl, h.representable, h.describes⟩

end SymTensor.Sound

theorem Value.Representable.rank_lt {v : Value} (h : v.Representable) :
    v.shape.length < sizeLimit := by
  have := h.rank
  simp only [Shape.entryBytes, byteLimit, sizeLimit] at this ⊢
  omega

namespace ValueInputs

/-- The inputs as a run describes them to settle the types of its outputs, those in `whole` with
the elements of every scalar and vector. -/
def described (whole : List Nat) (inputs : ValueInputs) : SymInputs :=
  inputs.zipIdx.map fun input => input.1.map fun v =>
    if whole.contains input.2 then v.toWhole else v.toShapeOnly

theorem find?_described (whole : List Nat) (inputs : ValueInputs) (i : Nat) :
    Inputs.find? (inputs.described whole) i = (Inputs.find? inputs i).map fun v =>
      if whole.contains i then v.toWhole else v.toShapeOnly := by
  rw [Inputs.find?, Inputs.find?, described, List.getElem?_map, List.getElem?_zipIdx, Nat.zero_add]
  cases inputs[i]? with
  | none => rfl
  | some v => rfl

theorem described_nil (inputs : ValueInputs) :
    inputs.described [] = inputs.map (Option.map Value.toShapeOnly) := by
  rw [described, ← List.zipIdx_map_fst 0 inputs, List.map_map, List.zipIdx_map_fst]
  exact List.map_congr_left fun _ _ => rfl

end ValueInputs

namespace Operator

theorem find?_describeInput (op : Operator) (inputs : ValueInputs) (i : Nat) :
    Inputs.find? (inputs.zipIdx.map op.describeInput) i = (Inputs.find? inputs i).map fun v =>
      if op.valueInputs.contains i then v.toWhole else v.toShapeOnly :=
  inputs.find?_described op.valueInputs i

theorem find?_sound (h : List.Forall₂ (Option.Rel (Sound names)) sym inputs) {i : Nat} {v : Value}
    (hv : Inputs.find? inputs i = some v) : ∃ t, Inputs.find? sym i = some t ∧ Sound names t v := by
  rw [Inputs.find?, Option.join_eq_some_iff] at hv
  obtain ⟨a, ha, hav⟩ := Related.get_right h hv
  cases hav with
  | some hav => exact ⟨_, by rw [Inputs.find?, ha]; rfl, hav⟩

theorem fit_of_sound (op : Operator) (h : List.Forall₂ (Option.Rel (Sound names)) sym inputs) :
    Fit names op.valueInputs sym (inputs.zipIdx.map op.describeInput) := by
  constructor
  · have hzip : ∀ k, List.Forall₂ (Option.Rel (Fits names)) sym
        ((inputs.zipIdx k).map op.describeInput) := by
      induction h with
      | nil => exact fun k => .nil
      | cons hab _ ih =>
        intro k
        rw [List.zipIdx_cons, List.map_cons]
        refine .cons ?_ (ih (k + 1))
        cases hab with
        | none => exact .none
        | some hab =>
          refine .some ?_
          split_ifs
          · exact hab.fitsWhole.1
          · exact hab.fits
    exact hzip 0
  · intro i hi
    have hcontains : op.valueInputs.contains i = true := by simpa using hi
    simp only [find?_describeInput, hcontains, if_true]
    have hs := Related.getElem? h i
    unfold Inputs.find?
    cases ha : sym[i]? with
    | none => cases hb : inputs[i]? <;> simp_all
    | some a =>
      cases hb : inputs[i]? with
      | none => simp_all
      | some b =>
        rw [ha, hb, Option.rel_some_some] at hs
        cases hs with
        | none => exact .none
        | some hab => exact .some hab.fitsWhole
  · intro u hu n hn
    obtain ⟨o, ho, rfl⟩ := List.mem_filterMap.mp hu
    obtain ⟨⟨v?, i⟩, hv, hvu⟩ := List.mem_map.mp ho
    obtain ⟨v, rfl, rfl⟩ := Option.map_eq_some_iff.mp hvu
    have hmem : some v ∈ inputs := (List.mem_zipIdx' hv).2 ▸ List.getElem_mem _
    obtain ⟨j, hj⟩ := List.getElem?_of_mem hmem
    obtain ⟨a, -, hab⟩ := Related.get_right h hj
    cases hab with
    | some hab =>
      have hlt := hab.representable.rank_lt
      dsimp only at hn
      split_ifs at hn <;> simp [SymTensor.rank?, SymShape.ofShape] at hn <;> omega

/-- Whether no name in the target of a reshape stands for an open size, or for the copy of a size
that is not zero. -/
def KeepsTarget (names : Names) (sym : SymInputs) (inputs : ValueInputs) : Operator → Prop
  | reshape r => ∀ t es x, Inputs.find? sym 1 = some t → t.elements = some es →
      Inputs.find? inputs 0 = some x →
        SymShape.TargetKept names (.ofShape x.shape) r.allowZero 0 (es.map (·.toDim))
  | _ => True

/-- Whether each known index that inference picks with lies inside what it picks from. -/
def PicksInside (sym : SymInputs) : Operator → Prop
  | gather _ => Gather.Picks sym
  | _ => True

/-- Whether the rule of a resize looks at scales that the run drops, and refuses them. -/
def RefusesDropped (sym : SymInputs) (inputs : ValueInputs) : Operator → Prop
  | resize _ => Resize.RefusesDropped sym inputs
  | _ => False

theorem infer_follows (op : Operator) {conc : SymInputs}
    (hshapes : conc = inputs.zipIdx.map op.describeInput)
    (h : Fit names op.valueInputs sym conc) (hkept : op.KeepsTarget names sym inputs)
    (hpick : op.PicksInside sym) (hresize : ∀ r, op ≠ resize r) (hcompress : ∀ c, op ≠ compress c)
    (hnonZero : op ≠ nonZero) :
    Outcome.Follows (List.Forall₂ (Fits names)) (op.infer sym) (op.infer conc) := by
  cases op with
  | argReduce op => exact op.infer_follows h
  | batchNormalization op => exact BatchNormalization.infer_follows h
  | binary f => exact f.infer_follows h
  | cast wanted => exact Cast.infer_follows wanted h
  | castLike => exact Cast.inferLike_follows h
  | clip => exact Clip.infer_follows h
  | concat op => exact op.infer_follows h
  | constantOfShape op => exact op.infer_follows h (by simp [valueInputs])
  | conv op => exact op.infer_follows h
  | convTranspose op => exact op.infer_follows h
  | cumSum op => exact CumSum.infer_follows h (by simp [valueInputs])
  | depthToSpace op => exact op.infer_follows h
  | expand => exact Expand.infer_follows h (by simp [valueInputs])
  | eyeLike op => exact op.infer_follows h
  | flatten op => exact op.infer_follows h
  | gather op => exact op.infer_follows h hpick
  | gatherElements op => exact op.infer_follows h
  | gatherND op => exact op.infer_follows h
  | gemm op => exact op.infer_follows h
  | globalPool op => exact GlobalPool.infer_follows h
  | identity => exact Reshaping.inferIdentity_follows h
  | instanceNormalization op => exact InstanceNormalization.infer_follows h
  | layerNormalization op => exact op.infer_follows h
  | lrn op => exact op.infer_follows h
  | matMul => exact MatMul.infer_follows h
  | oneHot op => exact op.infer_follows h (by simp [valueInputs])
  | pad op => exact op.infer_follows h (by simp [valueInputs])
  | pool op => exact op.infer_follows h
  | random op => exact op.infer_follows h
  | range => exact Range.infer_follows h (by simp [valueInputs])
  | reduce op => exact op.infer_follows h (by simp [valueInputs])
  | reshape op =>
    refine op.infer_follows h (by simp [valueInputs]) fun t es u ht he hu => ?_
    rw [hshapes, find?_describeInput] at hu
    obtain ⟨x, hx, rfl⟩ := Option.map_eq_some_iff.mp hu
    exact hkept t es x ht he hx
  | scatterElements op => exact op.infer_follows h
  | scatterND op => exact ScatterND.infer_follows h
  | shapeOf op => exact op.infer_follows h
  | sizeOf => exact SizeOf.infer_follows h
  | slice => exact Slice.infer_follows h (by simp [valueInputs])
  | softmax op => exact op.infer_follows h
  | spaceToDepth op => exact op.infer_follows h
  | split op => exact op.infer_follows h (by simp [valueInputs])
  | squeeze => exact Squeeze.infer_follows h (by simp [valueInputs])
  | tile => exact Tile.infer_follows h (by simp [valueInputs])
  | topK op => exact op.infer_follows h (by simp [valueInputs])
  | transpose op => exact op.infer_follows h
  | trilu op => exact Trilu.infer_follows h
  | unary f => exact f.infer_follows h
  | unsqueeze => exact Unsqueeze.infer_follows h (by simp [valueInputs])
  | variadic f => exact f.infer_follows h
  | select => exact Where.infer_follows h
  | resize r => exact absurd rfl (hresize r)
  | compress c => exact absurd rfl (hcompress c)
  | nonZero => exact absurd rfl hnonZero

theorem inferredTypes_ok {op : Operator} {types : List ValueType}
    (h : op.inferredTypes inputs = .ok types) :
    ∃ ws, op.infer (inputs.zipIdx.map op.describeInput) = .ok ws ∧ ws.length = op.outputCount ∧
      List.Forall₂ (fun w ty => w.dtype = ty.dtype ∧ w.shape.toShape? = some ty.shape) ws
      types := by
  obtain ⟨ws, hws, h⟩ := Outcome.bind_eq_ok.mp h
  obtain ⟨_, hlen, h⟩ := Outcome.bind_eq_ok.mp h
  rw [Outcome.refuseIf_eq_ok, not_not] at hlen
  refine ⟨ws, Outcome.mapError_eq_ok.mp hws, hlen, (Outcome.mapM_eq_ok.mp h).imp ?_⟩
  intro w ty hty
  obtain ⟨shape, hshape, hty⟩ := Outcome.bind_eq_ok.mp hty
  cases hty
  refine ⟨rfl, ?_⟩
  cases hs : w.shape.toShape? <;> simp_all

/-- A description that fits one of which the whole shape is known fits the type that is settled. -/
theorem fits_describe {ts ws : List SymTensor} {types : List ValueType}
    (hts : List.Forall₂ (Fits names) ts ws)
    (hws : List.Forall₂ (fun w ty => w.dtype = ty.dtype ∧ w.shape.toShape? = some ty.shape)
      ws types) :
    List.Forall₂ (fun t ty => Fits names t (ValueType.describe ty)) ts types := by
  refine Related.trans hts hws ?_
  rintro t w ty ht ⟨hdtype, hshape⟩
  refine ht.congr_right hdtype ?_
  rw [ValueType.shape_describe, (SymShape.toShape?_eq_some hshape).1]

theorem describeInputs_shapeOnly {op : Operator} (hop : op.valueInputs = []) :
    inputs.zipIdx.map op.describeInput = inputs.map (Option.map Value.toShapeOnly) := by
  rw [← inputs.described_nil, ← hop]
  rfl

theorem resize_types_known {op : Resize} {types : List ValueType}
    (h : (resize op).inferredTypes inputs = .ok types) {ws : List SymTensor}
    (hws : Resize.infer (inputs.zipIdx.map (resize op).describeInput) = .ok ws) :
    ∀ w ∈ ws, w.shape ≠ .unknown := by
  obtain ⟨ws', hws', -, htypes⟩ := inferredTypes_ok h
  obtain rfl : ws = ws' := Outcome.ok.inj (hws.symm.trans hws')
  intro w hw hunknown
  obtain ⟨i, hi⟩ := List.getElem?_of_mem hw
  obtain ⟨ty, -, -, hshape⟩ := Related.get_left htypes hi
  rw [hunknown] at hshape
  cases hshape

/-- What inference knows of the outputs fits the types that a run settles, where no rule refuses
what the run accepts. -/
theorem outputTypes_follows (op : Operator)
    (h : List.Forall₂ (Option.Rel (Sound names)) sym inputs)
    (hkept : op.KeepsTarget names sym inputs) (hpick : op.PicksInside sym)
    (hscales : ¬op.RefusesDropped sym inputs) :
    Outcome.Follows (List.Forall₂ fun t ty => Fits names t (ValueType.describe ty))
      (op.infer sym) (op.outputTypes inputs) := by
  have hfit := op.fit_of_sound h
  by_cases hnonZero : op = nonZero
  · subst hnonZero
    rw [describeInputs_shapeOnly rfl] at hfit
    exact NonZero.infer_follows hfit
  by_cases hcompress : ∃ c, op = compress c
  · obtain ⟨c, rfl⟩ := hcompress
    rw [describeInputs_shapeOnly rfl] at hfit
    exact c.infer_follows hfit
  intro types htypes
  have hinferred : op.inferredTypes inputs = .ok types := by
    cases op <;> first | exact htypes | simp_all
  obtain ⟨ws, hws, -, hknown⟩ := inferredTypes_ok hinferred
  have hfollows : Outcome.Follows (List.Forall₂ (Fits names)) (op.infer sym)
      (op.infer (inputs.zipIdx.map op.describeInput)) := by
    by_cases hresize : ∃ r, op = resize r
    · obtain ⟨r, rfl⟩ := hresize
      refine Resize.infer_follows hfit (by simp [valueInputs])
        (fun x t u hx ht hu hkeep hdrop hbad =>
        hscales ?_) fun ws hws => resize_types_known hinferred hws
      rw [find?_describeInput] at hu
      obtain ⟨v, hv, rfl⟩ := Option.map_eq_some_iff.mp hu
      obtain ⟨t', -, hsound⟩ := find?_sound h hv
      have hvolume : v.shape.volume = 0 := by
        refine (SymShape.count_ofShape_eq_zero hsound.representable.sizes).mp ?_
        simpa [valueInputs] using hdrop
      have hempty : v.isEmpty := by
        rw [Value.isEmpty, v.count_eq_volume, hvolume]
        rfl
      exact ⟨x, t, v, hx, ht, hv, hkeep, hempty, hbad⟩
    · exact op.infer_follows rfl hfit hkept hpick (fun r hr => hresize ⟨r, hr⟩)
        (fun c hc => hcompress ⟨c, hc⟩) hnonZero
  rcases hfollows ws hws with hf | ⟨ts, hts, hfits⟩
  · exact .inl hf
  · exact .inr ⟨ts, hts, fits_describe hfits hknown⟩

theorem outputTypes_related (op : Operator) (h : List.Forall₂ (Option.Rel (Sound names)) sym inputs)
    (hkept : op.KeepsTarget names sym inputs) (hpick : op.PicksInside sym) {ts : List SymTensor}
    (hts : op.infer sym = .ok ts) {types : List ValueType}
    (htypes : op.outputTypes inputs = .ok types) :
    List.Forall₂ (fun t ty => Fits names t (ValueType.describe ty)) ts types := by
  by_cases hresize : ∃ r, op = resize r
  · obtain ⟨r, rfl⟩ := hresize
    obtain ⟨ws, hws, -, hknown⟩ := inferredTypes_ok htypes
    exact fits_describe
      (Resize.infer_related ((resize r).fit_of_sound h) (by simp [valueInputs]) hts
      hws (resize_types_known htypes hws)) hknown
  · refine (op.outputTypes_follows h hkept hpick ?_).related hts htypes
    cases op <;> simp_all [RefusesDropped]

end Operator

end TensorGraph
