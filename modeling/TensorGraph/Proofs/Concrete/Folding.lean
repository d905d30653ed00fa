import Mathlib
import TensorGraph.Proofs.Concrete.Parameters
import TensorGraph.Proofs.Kernels.Operators

/-! Inference on what is tracked of given values agrees with a run of an operator that folds:
wherever the run computes outputs, inference describes as many, and whatever it knows of them is
so. -/

namespace TensorGraph

open Outcome SymTensor ValueInputs

variable {inputs : ValueInputs} {types : List ValueType} {outputs : List Value}

/-- Whether all that is known of a tensor is so of a value: its type, its sizes and its elements,
numbers by their bits. Names stand for nothing here. -/
structure SymTensor.Agrees (t : SymTensor) (v : Value) : Prop where
  dtype : t.dtype = v.dtype
  sizes : ∀ ds, t.shape = .ranked ds →
    List.Forall₂ (fun d (n : Nat) =>
        d = .unknown ∨ ∃ m, d = .size m ∧ m.toInt = (n : Int)) ds v.shape
  elements : ∀ es, t.elements = some es →
    List.Forall₂ (fun e c => e = .unknown ∨ e = c) es v.elements

/-- Whether the reference backend computes outputs from inputs: it settles their types and fills
zeros of these types. -/
def Operator.Computes (op : Operator) (inputs : ValueInputs) (outputs : List Value) : Prop :=
  ∃ draws types zeroed i, op.outputTypes inputs = .ok types ∧
    (types.mapM Value.zeros : Outcome OpError (List Value)) = .ok zeroed ∧
    Chain.reference.dispatch op draws inputs zeroed = .ok (some (i, outputs))

theorem SymShape.lt_of_toShape? {s : SymShape} {shape : Shape} (h : s.toShape? = some shape) :
    ∀ n ∈ shape, n < intLimit := by
  have hlimit := intLimit_eq
  intro n hn
  cases s with
  | unknown => cases h
  | ranked ds =>
    rw [toShape?_ranked, Option.mapM_eq_some] at h
    obtain ⟨i, hi⟩ := List.getElem?_of_mem hn
    obtain ⟨d, -, hd⟩ := Related.get_right h hi
    cases d with
    | size m =>
      have hm := fitsInt_toInt m
      simp only [sizeOf?, Option.ite_none_right_eq_some, Option.some.injEq] at hd
      obtain ⟨-, rfl⟩ := hd
      simp only [FitsInt] at hm
      omega
    | unknown | param _ => cases hd

theorem SymDim.eq_of_covers {d : SymDim} {n : Nat} (hn : n < intLimit)
    (h : d.Covers (fun _ => none) (.ofSize n)) :
    d = .unknown ∨ ∃ m, d = .size m ∧ m.toInt = n := by
  cases d with
  | unknown => exact .inl rfl
  | size m =>
    obtain rfl := SymDim.size.inj (SymDim.covers_size.mp h)
    exact .inr ⟨_, rfl, toInt_intOfSize hn⟩
  | param p =>
    obtain ⟨_, hp, -⟩ := h
    cases hp

theorem SymElement.eq_of_covers {e c : SymElement} (h : e.Covers (fun _ => none) c) :
    e = .unknown ∨ e = c := by
  cases e with
  | unknown => exact .inl rfl
  | int n | float bits => exact .inr h.symm
  | param p =>
    obtain ⟨_, hp, -⟩ := h
    cases hp

theorem SymTensor.Sound.agrees {t : SymTensor} {v : Value} (h : Sound (fun _ => none) t v)
    (hsizes : ∀ n ∈ v.shape, n < intLimit) : t.Agrees v where
  dtype := h.describes.dtype
  sizes := by
    intro ds hds
    obtain ⟨cs, hcs, hd⟩ := hds ▸ h.describes.shape
    rw [SymShape.ofShape, SymShape.ranked.injEq] at hcs
    rw [← hcs, List.forall₂_map_right_iff] at hd
    have hsized := (List.forall₂_and_left v.shape ds).mpr ⟨hsizes, hd.flip⟩
    exact hsized.flip.imp fun d n hdn => SymDim.eq_of_covers hdn.1 hdn.2
  elements := fun es hes => (h.describes.elements es hes).imp fun _ _ => SymElement.eq_of_covers

namespace Operator

theorem infer_lasts (op : Operator) (hfolds : op.folds = true)
    (hinputs : ∀ v ∈ Inputs.given inputs, v.Representable) :
    Lasts (op.infer inputs.symbolic) (op.infer (inputs.zipIdx.map op.describeInput)) := by
  cases op with
  | binary f => exact endures_of_noFault (f.noFault_infer _) _
  | cast wanted => exact endures_of_noFault (Cast.noFault_infer wanted _) _
  | castLike => exact endures_of_noFault (Cast.noFault_inferLike _) _
  | concat op => exact op.infer_lasts
  | constantOfShape op => exact op.infer_lasts
  | expand => exact Expand.infer_lasts
  | flatten op => exact op.infer_lasts
  | gather op => exact op.infer_lasts hinputs
  | identity => exact endures_of_noFault (Reshaping.noFault_inferIdentity _) _
  | range => exact Range.infer_lasts
  | reduce op => exact op.infer_lasts
  | reshape op => exact op.infer_lasts
  | shapeOf op => exact endures_of_noFault (op.noFault_infer _) _
  | sizeOf => exact endures_of_noFault (SizeOf.noFault_infer _) _
  | slice => exact Slice.infer_lasts hinputs
  | split op => exact op.infer_lasts
  | squeeze => exact Squeeze.infer_lasts
  | transpose op => exact endures_of_noFault (op.noFault_infer _) _
  | unary f => exact endures_of_noFault (f.noFault_infer _) _
  | unsqueeze => exact Unsqueeze.infer_lasts hinputs
  | variadic f => exact endures_of_noFault (f.noFault_infer _) _
  | select => exact endures_of_noFault (Where.noFault_infer _) _
  | argReduce | batchNormalization | clip | compress | conv | convTranspose | cumSum | depthToSpace
  | eyeLike | gatherElements | gatherND | gemm | globalPool | instanceNormalization
  | layerNormalization | lrn | matMul | nonZero | oneHot | pad | pool | random | resize
  | scatterElements | scatterND | softmax | spaceToDepth | tile | topK | trilu => cases hfolds

/-- The elements of a value name nothing, so that a target keeps what it asks for. -/
theorem keepsTarget_symbolic (op : Operator) (inputs : ValueInputs) (names : Names) :
    op.KeepsTarget names inputs.symbolic inputs := by
  cases op with
  | reshape r =>
    intro t es x ht hes _ j p n hp
    rw [find?_symbolic, Option.map_eq_some_iff] at ht
    obtain ⟨v, -, rfl⟩ := ht
    rw [Value.elements_toSymbolic, Option.map_eq_some_iff] at hes
    obtain ⟨-, -, rfl⟩ := hes
    rw [List.getElem?_map, Option.map_eq_some_iff] at hp
    obtain ⟨e, he, hep⟩ := hp
    have hcovers : e.Covers (fun _ => none) e := Value.covers_self_of_mem (List.mem_of_getElem? he)
    rcases SymElement.eq_of_covers hcovers with rfl | -
    · cases hep
    · cases e with
      | param q =>
        obtain ⟨_, hq, -⟩ := hcovers
        cases hq
      | unknown | int _ | float _ => cases hep
  | _ => trivial

theorem inferredTypes_of_folds {op : Operator} (hfolds : op.folds = true)
    (h : op.outputTypes inputs = .ok types) : op.inferredTypes inputs = .ok types := by
  cases op <;> first | exact h | cases hfolds

/-- An operator that folds, on inputs from which a run computes outputs: inference on what is
tracked of the inputs describes each output, and all that it knows of an output is so. -/
theorem infer_agrees_of_computes (op : Operator) (hfolds : op.folds = true)
    (hinputs : ∀ v ∈ Inputs.given inputs, v.Representable) (hrun : op.Computes inputs outputs) :
    ∃ ts, op.infer inputs.symbolic = .ok ts ∧ List.Forall₂ SymTensor.Agrees ts outputs := by
  obtain ⟨draws, types, zeroed, i, htypes, hzeroed, hdispatch⟩ := hrun
  have hsound : List.Forall₂ (Option.Rel (Sound fun _ => none)) inputs.symbolic inputs :=
    sound_symbolic hinputs
  have hkept := op.keepsTarget_symbolic inputs fun _ => none
  have hpick := picksInside_of_run hsound htypes (.inr ⟨i, hdispatch⟩)
  obtain ⟨ws, hws, -, hshapes⟩ := inferredTypes_ok (inferredTypes_of_folds hfolds htypes)
  have hfault := (op.infer_lasts hfolds hinputs ws hws).1
  have hscales : ¬op.RefusesDropped inputs.symbolic inputs :=
      by cases op <;> first | exact id | cases hfolds
  obtain ⟨ts, hts, -⟩ :=
    (op.outputTypes_follows hsound hkept hpick hscales types htypes).resolve_left hfault
  refine ⟨ts, hts, ?_⟩
  have houtputs := op.sound hsound hkept hts htypes hzeroed (.inr ⟨i, hdispatch⟩)
  rw [known, if_pos hfolds] at houtputs
  have hsizes : ∀ v ∈ outputs, ∀ n ∈ v.shape, n < intLimit := by
    intro v hv
    have hkeeps :=
      Chain.types_of_dispatch_reference draws inputs zeroed hdispatch
    obtain ⟨z, hz, hzv⟩ := List.mem_map.mp (hkeeps ▸ List.mem_map_of_mem hv)
    obtain ⟨j, hj⟩ := List.getElem?_of_mem hz
    obtain ⟨ty, hty, hzero⟩ := Related.get_right (mapM_eq_ok.mp hzeroed) hj
    obtain ⟨w, -, -, hshape⟩ := Related.get_right hshapes hty
    have hsame : v.shape = ty.shape :=
      congrArg ValueType.shape (hzv.symm.trans (Value.zeros_eq_ok hzero).1)
    exact hsame ▸ SymShape.lt_of_toShape? hshape
  have hsized := (List.forall₂_and_left outputs ts).mpr ⟨hsizes, houtputs.flip⟩
  exact hsized.flip.imp fun t v htv => htv.2.agrees htv.1

/-- Every second element from the end, where the bounds lie outside the vector. -/
theorem infer_agrees_backward : slice.Computes
      [some (.int (.ofList [1, -2, 3, -4, 5])), some (.int (.ofList [-1])),
        some (.int (.ofList [-9])), none, some (.int (.ofList [-2]))]
      [.int (.ofList [5, 3, 1])] ∧
    ∃ ts, slice.infer (symbolic [some (.int (.ofList [1, -2, 3, -4, 5])),
        some (.int (.ofList [-1])), some (.int (.ofList [-9])), none, some (.int (.ofList [-2]))]) =
          .ok ts ∧
      List.Forall₂ SymTensor.Agrees ts [.int (.ofList [5, 3, 1])] := by
  have hrun : slice.Computes
      [some (.int (.ofList [1, -2, 3, -4, 5])), some (.int (.ofList [-1])),
        some (.int (.ofList [-9])), none, some (.int (.ofList [-2]))]
      [.int (.ofList [5, 3, 1])] :=
    ⟨.none, [⟨.int, [3]⟩], [.int (.ofList [0, 0, 0])], 0, by cbv, by cbv, by cbv⟩
  refine ⟨hrun, infer_agrees_of_computes slice rfl ?_ hrun⟩
  decide

end Operator

end TensorGraph
