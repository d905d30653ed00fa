import TensorGraph.Elementwise.Several
import TensorGraph.Elementwise.Unary
import TensorGraph.Proofs.Covering.Inputs

/-! The shape rules of functions that are computed element by element. -/

namespace TensorGraph

open SymTensor SymInputs

variable {names : Names} {whole : List Nat} {sym conc : SymInputs}

/-- Tensors that are read together fit a result of their common shape. -/
theorem SymTensor.broadcast_follows {ts us : List SymTensor} {dtype dtype' : DataType}
    (h : List.Forall₂ (Fits names) ts us) (hd : dtype = dtype') :
    Outcome.Follows (Fits names) (broadcast ts dtype) (broadcast us dtype') := by
  refine (@SymShape.broadcast_follows names _ _ ?_).bind fun s c hs => ?_
  · exact Related.map h fun _ _ hf => hf.shape
  · exact Outcome.follows_ok (fits_ofShape hd hs)

theorem SymTensor.Fits.fillFrom {t u : SymTensor} (h : Fits names t u)
    (inputs inputs' : List SymTensor) (f g : Nat → SymElement) : Fits names (t.fillFrom inputs f)
    (u.fillFrom inputs' g) := by
  have hleft : Fits names (t.fillFrom inputs f) u := by
    unfold SymTensor.fillFrom
    split_ifs
    · exact ⟨h.dtype, h.shape, h.tracked.map t.dtype fun es => by simp⟩
    · exact h
  refine hleft.congr_right ?_ ?_ <;> unfold SymTensor.fillFrom <;> split_ifs <;> rfl

theorem UnaryFn.infer_follows (f : UnaryFn) (h : Fit names whole sym conc) :
    Outcome.Follows (List.Forall₂ (Fits names)) (f.infer sym) (f.infer conc) := by
  refine (h.demand 0).bind fun x u hx => follows_single ?_
  rw [hx.dtype]
  split_ifs
  · exact hx.mapElements _ _ _
  · exact hx.sameShape _

theorem BinaryFn.infer_follows (f : BinaryFn) (h : Fit names whole sym conc) :
    Outcome.Follows (List.Forall₂ (Fits names)) (f.infer sym) (f.infer conc) := by
  refine (h.demand 0).bind fun a c ha => (h.demand 1).bind fun b d hb => ?_
  rw [ha.dtype, hb.dtype]
  refine Outcome.follows_bind_same fun _ _ => ?_
  refine (broadcast_follows (.cons ha (.cons hb .nil)) rfl).bind fun t u ht => follows_single ?_
  split_ifs
  · exact ht.fillFrom _ _ _ _
  · exact ht

theorem VariadicFn.infer_follows (f : VariadicFn) (h : Fit names whole sym conc) :
    Outcome.Follows (List.Forall₂ (Fits names)) (f.infer sym) (f.infer conc) := by
  refine (h.demand 0).bind fun x u hx => ?_
  refine (Outcome.follows_refuseIf (h.given_types hx.dtype)).bind fun _ _ _ => ?_
  refine (broadcast_follows h.given hx.dtype).bind fun t v ht => follows_single ?_
  split_ifs
  · exact ht.fillFrom _ _ _ _
  · exact ht

theorem Where.infer_follows (h : Fit names whole sym conc) :
    Outcome.Follows (List.Forall₂ (Fits names)) (Where.infer sym) (Where.infer conc) := by
  refine (h.demand 0).bind fun c c' hc => (h.demand 1).bind fun x x' hx => ?_
  refine (h.demand 2).bind fun y y' hy => ?_
  rw [hc.dtype, hx.dtype, hy.dtype]
  refine Outcome.follows_bind_same fun _ _ => Outcome.follows_bind_same fun _ _ => ?_
  refine (broadcast_follows (.cons hc (.cons hx (.cons hy .nil))) rfl).bind fun t u ht => ?_
  exact follows_single (ht.fillFrom _ _ _ _)

theorem Clip.infer_follows (h : Fit names whole sym conc) :
    Outcome.Follows (List.Forall₂ (Fits names)) (Clip.infer sym) (Clip.infer conc) := by
  refine (h.demand 0).bind fun x u hx => ?_
  have hbounds : List.Forall₂ (Fits names)
      ([Inputs.find? sym 1, Inputs.find? sym 2].filterMap id)
      ([Inputs.find? conc 1, Inputs.find? conc 2].filterMap id) :=
    Related.filterMap (.cons (h.find? 1) (.cons (h.find? 2) .nil)) fun _ _ hab => hab
  rw [hx.dtype]
  refine (Outcome.follows_refuseIf (Related.any hbounds fun a b hab => ?_)).bind fun _ _ _ => ?_
  · rw [hab.dtype]
    exact id
  · exact follows_single (hx.sameShape _)

end TensorGraph
