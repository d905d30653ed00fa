import TensorGraph.Generation.Fill
import TensorGraph.Generation.Random
import TensorGraph.Proofs.Covering.Inputs

/-! The shape rules of operators that make tensors from a description or in another type. -/

namespace TensorGraph

open SymTensor SymInputs

variable {names : Names} {whole : List Nat} {sym conc : SymInputs}

theorem ConstantOfShape.infer_follows (op : ConstantOfShape) (h : Fit names whole sym conc)
    (hwhole : 0 ∈ whole) :
    Outcome.Follows (List.Forall₂ (Fits names)) (op.infer sym) (op.infer conc) := by
  refine (h.demandWhole hwhole).bind fun x u hx => ?_
  rw [hx.1.dtype]
  refine Outcome.follows_bind_same fun _ _ => hx.toSizes.bind fun s c hs => ?_
  refine (Outcome.follows_refuseIf fun hneg => ?_).bind fun _ _ _ => ?_
  · cases s with
    | unknown => simp [SymShape.dims, SymShape.dims?] at hneg
    | ranked ds =>
      obtain ⟨cs, rfl, hd⟩ := hs
      exact Related.any hd (fun _ _ hxy => hxy.value?.any) hneg
  · exact follows_single ((fits_ofShape rfl hs).mapElements _ _ _)

theorem EyeLike.infer_follows (op : EyeLike) (h : Fit names whole sym conc) :
    Outcome.Follows (List.Forall₂ (Fits names)) (op.infer sym) (op.infer conc) := by
  refine (h.demand 0).bind fun x u hx => (hx.shape.declareRank 2).bind fun s c hs => ?_
  rw [hx.dtype]
  exact follows_single (fits_ofShape rfl hs)

theorem Sampling.infer_follows (op : Sampling) (h : Fit names whole sym conc) :
    Outcome.Follows (List.Forall₂ (Fits names)) (op.infer sym) (op.infer conc) := by
  unfold infer
  cases op.shape? with
  | some shape => exact follows_single (fits_ofShape rfl (SymShape.ofShape_covers_self shape))
  | none =>
    refine (h.demand 0).bind fun x u hx => ?_
    rw [hx.dtype]
    exact Outcome.follows_bind_same fun _ _ => follows_single (hx.sameShape .float)

theorem Cast.infer_follows (wanted : DataType) (h : Fit names whole sym conc) :
    Outcome.Follows (List.Forall₂ (Fits names)) (Cast.infer wanted sym)
      (Cast.infer wanted conc) :=
  (h.demand 0).bind fun _ _ hx => follows_single (hx.mapElements _ _ _)

theorem Cast.inferLike_follows (h : Fit names whole sym conc) :
    Outcome.Follows (List.Forall₂ (Fits names)) (Cast.inferLike sym) (Cast.inferLike conc) := by
  refine (h.demand 0).bind fun x u hx => (h.demand 1).bind fun t v ht => follows_single ?_
  rw [ht.dtype]
  exact hx.mapElements _ _ _

namespace Range

theorem length_intElements (delta : Int64) (count : Nat) (n : Option Int64) :
    (intElements delta count n).length = count := by
  induction count generalizing n with
  | zero => rfl
  | succ count ih => cases n <;> simp [intElements, ih]

theorem length_floatElements (delta : Float32) (count : Nat) (x : Float32) :
    (floatElements delta count x).length = count := by
  induction count generalizing x with
  | zero => rfl
  | succ count ih => simp [floatElements, ih]

theorem sequence_fits (dtype : DataType) (length : Nat) {elements : Nat → List SymElement}
    (helements : ∀ n, (elements n).length = n) :
    Fits names (sequence dtype length elements) (sequence dtype length elements) :=
  ⟨rfl, SymShape.ranked_covers_ranked.mpr (.cons rfl .nil),
    (tracked_ofShape dtype _).map dtype fun _ => helements _⟩

theorem demandSingle_follows {t u : SymTensor} (h : Fits names t u) :
    Outcome.Follows (fun _ _ => True) (demandSingle t) (demandSingle u) :=
  Outcome.follows_refuseIf h.shape.count.value?.any

def result (dtype : DataType) (start limit delta : Option SymElement) :
    Outcome RuleError (List SymTensor) :=
  match start, limit, delta with
  | some (.int start), some (.int limit), some (.int delta) => do
    let length ← intLength start limit delta
    return [sequence dtype length fun count => intElements delta count (some start)]
  | some (.float start), some (.float limit), some (.float delta) => do
    let length ← floatLength (.ofBits start) (.ofBits limit) (.ofBits delta)
    return [sequence dtype length fun count => floatElements (.ofBits delta) count (.ofBits start)]
  | _, _, delta => do
    .refuseIf (delta = some (.int 0)) (.value .zeroDelta)
    return [.ofShape dtype (.ranked [.unknown])]

theorem infer_eq (inputs : SymInputs) : infer inputs = (do
    let start ← inputs.demand 0
    let limit ← inputs.demand 1
    let delta ← inputs.demand 2
    .refuseIf (limit.dtype ≠ start.dtype ∨ delta.dtype ≠ start.dtype) (.type .rangeTypes)
    demandSingle start
    demandSingle limit
    demandSingle delta
    result start.dtype start.single? limit.single? delta.single?) := rfl

theorem result_ok {dtype : DataType} {start limit delta : Option SymElement}
    {ws : List SymTensor} (h : result dtype start limit delta = .ok ws) :
    delta ≠ some (.int 0) ∧
      ∃ w d, ws = [w] ∧ w.dtype = dtype ∧ w.shape = .ranked [d] := by
  unfold result at h
  split at h
  · obtain ⟨length, hlength, h⟩ := Outcome.bind_eq_ok.mp h
    obtain ⟨_, hzero, -⟩ := Outcome.bind_eq_ok.mp hlength
    rw [Outcome.refuseIf_eq_ok] at hzero
    exact ⟨by simpa using hzero, _, _, (Outcome.ok.inj h).symm, rfl, rfl⟩
  · obtain ⟨length, -, h⟩ := Outcome.bind_eq_ok.mp h
    exact ⟨by simp, _, _, (Outcome.ok.inj h).symm, rfl, rfl⟩
  · obtain ⟨_, hzero, h⟩ := Outcome.bind_eq_ok.mp h
    rw [Outcome.refuseIf_eq_ok] at hzero
    exact ⟨hzero, _, _, (Outcome.ok.inj h).symm, rfl, rfl⟩

theorem intLength_lt {start limit delta : Int64} {n : Nat}
    (h : intLength start limit delta = .ok n) : n < intLimit := by
  have hlimit := intLimit_eq
  obtain ⟨_, -, h⟩ := Outcome.bind_eq_ok.mp h
  obtain ⟨_, -, h⟩ := Outcome.bind_eq_ok.mp h
  obtain ⟨count, -, h⟩ := Outcome.bind_eq_ok.mp h
  cases h
  have htop := fitsInt_toInt count
  unfold FitsInt at htop
  omega

def ElementTold (names : Names) (e c : Option SymElement) : Prop :=
  ∀ x, e = some x → ∃ y, c = some y ∧ x.Covers names y

theorem result_follows (dtype : DataType) {a b d a' b' d' : Option SymElement}
    (ha : ElementTold names a a') (hb : ElementTold names b b') (hd : ElementTold names d d') :
    Outcome.Follows (List.Forall₂ (Fits names)) (result dtype a b d) (result dtype a' b' d') := by
  have hvector : ∀ ws, result dtype a' b' d' = .ok ws → ∃ w, ws = [w] ∧
      Fits names (.ofShape dtype (.ranked [.unknown])) w := by
    intro ws hws
    obtain ⟨-, w, e, rfl, hdtype, hshape⟩ := result_ok hws
    refine ⟨w, rfl, ofShape_fits hdtype.symm ?_⟩
    rw [hshape]
    exact SymShape.ranked_covers_ranked.mpr (.cons (SymDim.covers_unknown _) .nil)
  have hrest : Outcome.Follows (List.Forall₂ (Fits names)) (do
      .refuseIf (d = some (.int 0)) (.value .zeroDelta)
      return [.ofShape dtype (.ranked [.unknown])] : Outcome RuleError (List SymTensor))
      (result dtype a' b' d') := by
    intro ws hws
    have hzero : d ≠ some (.int 0) := by
      intro hzero
      obtain ⟨c, hc, hcover⟩ := hd _ hzero
      rw [SymElement.covers_int.mp hcover] at hc
      exact (result_ok hws).1 hc
    obtain ⟨w, rfl, hw⟩ := hvector ws hws
    exact .inr ⟨_, by simp [Outcome.refuseIf, hzero], .cons hw .nil⟩
  unfold result
  split
  · obtain ⟨c, rfl, hc⟩ := ha _ rfl
    obtain ⟨e, rfl, he⟩ := hb _ rfl
    obtain ⟨f, rfl, hf⟩ := hd _ rfl
    rw [SymElement.covers_int.mp hc, SymElement.covers_int.mp he, SymElement.covers_int.mp hf]
    refine Outcome.follows_bind_same fun length _ => follows_single ?_
    exact sequence_fits dtype length fun n => length_intElements _ n _
  · obtain ⟨c, rfl, hc⟩ := ha _ rfl
    obtain ⟨e, rfl, he⟩ := hb _ rfl
    obtain ⟨f, rfl, hf⟩ := hd _ rfl
    rw [SymElement.covers_float.mp hc, SymElement.covers_float.mp he,
      SymElement.covers_float.mp hf]
    refine Outcome.follows_bind_same fun length _ => follows_single ?_
    exact sequence_fits dtype length fun n => length_floatElements _ n _
  · exact hrest

theorem infer_follows (h : Fit names whole sym conc) (hwhole : ∀ i ∈ [0, 1, 2], i ∈ whole) :
    Outcome.Follows (List.Forall₂ (Fits names)) (infer sym) (infer conc) := by
  rw [infer_eq, infer_eq]
  refine (h.demandWhole (hwhole 0 (by decide))).bind fun a a' ha => ?_
  refine (h.demandWhole (hwhole 1 (by decide))).bind fun b b' hb => ?_
  refine (h.demandWhole (hwhole 2 (by decide))).bind fun d d' hd => ?_
  rw [ha.1.dtype, hb.1.dtype, hd.1.dtype]
  refine Outcome.follows_bind_same fun _ _ => (demandSingle_follows ha.1).bind fun _ _ _ => ?_
  refine (demandSingle_follows hb.1).bind fun _ _ _ => ?_
  refine (demandSingle_follows hd.1).bind fun _ _ _ => ?_
  exact result_follows a'.dtype (fun _ => ha.single?) (fun _ => hb.single?) fun _ => hd.single?

end Range

end TensorGraph
