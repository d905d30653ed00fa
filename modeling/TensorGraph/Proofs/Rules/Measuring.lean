import TensorGraph.Proofs.Covering.Inputs
import TensorGraph.Rearrange.Blocks
import TensorGraph.Rearrange.Measure
import TensorGraph.Rearrange.Triangle

/-! The shape rules of operators that measure a tensor, keep a triangle of its matrices, or move its
pixels between channels and blocks. -/

namespace TensorGraph

open SymTensor SymInputs

variable {names : Names} {whole : List Nat} {sym conc : SymInputs}

/-- A vector of a number of elements that is a 64-bit word lists as many as it tracks. -/
theorem SymTensor.tracked_vector (dtype : DataType) {es : List SymElement}
    (h : es.length < sizeLimit) : (vector dtype es).Tracked := by
  intro cs hcs
  simp only [vector] at hcs
  split_ifs at hcs with hsome
  cases hcs
  obtain ⟨n, hn⟩ := Option.isSome_iff_exists.mp hsome
  obtain ⟨-, sizes, hsizes, -, hvolume⟩ := trackedCount_eq_some hn
  obtain ⟨heq, hbound⟩ := SymShape.toShape?_eq_some hsizes
  have hshape := SymShape.ofShape_injective (by simpa using h) hbound heq
  rw [vector, hn, ← hvolume, ← hshape]
  simp [Shape.volume]

theorem SymTensor.vector_fits (dtype : DataType) {es cs : List SymElement}
    (hlen : es.length = cs.length) (h : cs.length < sizeLimit) :
    Fits names (vector dtype es) (vector dtype cs) := by
  refine ⟨rfl, ?_, tracked_vector dtype (hlen ▸ h)⟩
  simp only [vector, hlen, SymShape.ofShape]
  exact SymShape.ranked_covers_ranked.mpr (.cons rfl .nil)

theorem ShapeOf.infer_follows (op : ShapeOf) (h : Fit names whole sym conc) :
    Outcome.Follows (List.Forall₂ (Fits names)) (op.infer sym) (op.infer conc) := by
  refine (h.demand 0).bind_ok fun x u hx _ hu => ?_
  have hmem : u ∈ Inputs.given conc := by
    rw [demand_eq_ok, Inputs.find?, Option.join_eq_some_iff] at hu
    exact List.mem_filterMap.mpr ⟨some u, List.mem_of_getElem? hu, rfl⟩
  have hrank := h.rank u hmem
  have hs := hx.shape
  rw [SymTensor.rank?] at hrank
  generalize x.shape = s at hs ⊢
  generalize u.shape = c at hs hrank ⊢
  cases s with
  | unknown =>
    cases c with
    | unknown => exact follows_single (fits_ofShape rfl (SymShape.ofRank_covers_ofRank 1))
    | ranked cs =>
      refine follows_single (ofShape_fits rfl ?_)
      exact SymShape.ranked_covers_ranked.mpr (.cons (SymDim.covers_unknown _) .nil)
  | ranked ds =>
    obtain ⟨cs, rfl, hd⟩ := hs
    simp only [hd.length_eq]
    refine follows_single (vector_fits .int ?_ ?_)
    · simp [hd.length_eq]
    · have := hrank cs.length rfl
      simp
      omega

theorem SizeOf.infer_follows (h : Fit names whole sym conc) :
    Outcome.Follows (List.Forall₂ (Fits names)) (SizeOf.infer sym) (SizeOf.infer conc) := by
  refine (h.demand 0).bind fun x u hx => follows_single ?_
  refine ⟨rfl, SymShape.ranked_covers_ranked.mpr .nil, fun es hes => ?_⟩
  cases hes
  rfl

theorem Trilu.infer_follows (h : Fit names whole sym conc) :
    Outcome.Follows (List.Forall₂ (Fits names)) (Trilu.infer sym) (Trilu.infer conc) := by
  refine (h.demand 0).bind fun x u hx => (hx.shape.demandRank 2).bind fun _ _ _ => ?_
  refine (Outcome.follows_refuseIf fun hany => ?_).bind fun _ _ _ => ?_
  · exact h.find?_type 1 rfl hany
  · exact follows_single (hx.dtype ▸ hx.sameShape x.dtype)

namespace Blocks

theorem dims_follows {x u : SymTensor} (hx : Fits names x u) (block : Nat) :
    Outcome.Follows (fun a b => a.1.Covers names b.1 ∧ a.2.1.Covers names b.2.1 ∧
      a.2.2.1.Covers names b.2.2.1 ∧ a.2.2.2.Covers names b.2.2.2) (dims x block)
      (dims u block) := by
  refine Outcome.follows_bind_same fun _ _ => (hx.shape.declareRank 4).bind fun s c hs => ?_
  exact Outcome.follows_ok ⟨hs.dim 0, hs.dim 1, hs.dim 2, hs.dim 3⟩

theorem demandMultiple_follows {d c : SymDim} (h : d.Covers names c) (divisor : Nat) :
    Outcome.Follows (fun _ _ => True) (demandMultiple d divisor) (demandMultiple c divisor) := by
  unfold demandMultiple
  cases hd : d.value? with
  | none => exact fun _ _ => .inr ⟨(), rfl, trivial⟩
  | some n =>
    rw [h.value? n hd]
    exact (Outcome.follows_refl _).mono fun _ _ _ => trivial

theorem area_covers {block : Nat} {d : SymDim}
    (h : (area block : Outcome RuleError SymDim) = .ok d) :
    d.Covers names d := by
  obtain ⟨n, -, hn⟩ := Outcome.bind_eq_ok.mp h
  cases hn
  rfl

end Blocks

theorem DepthToSpace.infer_follows (op : DepthToSpace) (h : Fit names whole sym conc) :
    Outcome.Follows (List.Forall₂ (Fits names)) (op.infer sym) (op.infer conc) := by
  refine (h.demand 0).bind fun x u hx => (Blocks.dims_follows hx op.block).bind ?_
  rintro ⟨n, c, h, w⟩ ⟨n', c', h', w'⟩ ⟨hn, hc, hh, hw⟩
  refine Outcome.follows_bind_same fun area _ => ?_
  refine (Blocks.demandMultiple_follows hc area).bind fun _ _ _ => ?_
  refine Outcome.follows_bind_same fun area harea => ?_
  refine (hc.floorDiv (Blocks.area_covers harea)).bind fun k k' hk => ?_
  refine follows_single (fits_ofShape hx.dtype ?_)
  rw [SymShape.ranked_covers_ranked]
  exact .cons hn (.cons hk (.cons (hh.mul (SymDim.covers_ofSize _))
    (.cons (hw.mul (SymDim.covers_ofSize _)) .nil)))

theorem SpaceToDepth.infer_follows (op : SpaceToDepth) (h : Fit names whole sym conc) :
    Outcome.Follows (List.Forall₂ (Fits names)) (op.infer sym) (op.infer conc) := by
  refine (h.demand 0).bind fun x u hx => (Blocks.dims_follows hx op.block).bind ?_
  rintro ⟨n, c, h, w⟩ ⟨n', c', h', w'⟩ ⟨hn, hc, hh, hw⟩
  refine (Blocks.demandMultiple_follows hh op.block).bind fun _ _ _ => ?_
  refine (Blocks.demandMultiple_follows hw op.block).bind fun _ _ _ => ?_
  refine Outcome.follows_bind_same fun area harea => ?_
  have hblock := @SymDim.covers_ofSize names op.block
  refine (hh.floorDiv hblock).bind fun p p' hp => (hw.floorDiv hblock).bind fun q q' hq => ?_
  refine follows_single (fits_ofShape hx.dtype (SymShape.ranked_covers_ranked.mpr ?_))
  exact .cons hn (.cons (hc.mul (Blocks.area_covers harea)) (.cons hp (.cons hq .nil)))

end TensorGraph
