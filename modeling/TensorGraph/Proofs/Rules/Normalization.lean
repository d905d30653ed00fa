import TensorGraph.Normalization.Channels
import TensorGraph.Normalization.Softmax
import TensorGraph.Product.Matrix
import TensorGraph.Proofs.Axes
import TensorGraph.Proofs.Covering.Inputs

/-! The shape rules of normalizations, which keep the shape of their input, and of products of
matrices. -/

namespace TensorGraph

open SymTensor SymInputs

variable {names : Names} {whole : List Nat} {sym conc : SymInputs}

namespace Normalization

theorem demandFloat_follows {x u : SymTensor} (hx : Fits names x u) (leastRank : Nat) :
    Outcome.Follows (Fits names) (demandFloat x leastRank) (demandFloat u leastRank) := by
  rw [demandFloat, demandFloat, hx.dtype]
  refine Outcome.follows_bind_same fun _ _ => (hx.shape.demandRank leastRank).bind fun _ _ _ => ?_
  exact Outcome.follows_ok (hx.sameShape .float)

def demandAxis (rank : Option Nat) (axis : Int64) : Outcome RuleError Unit :=
  match rank with
  | some rank => do
    let _ ← Axis.resolve rank axis
  | none => .ok ()

theorem demandAxis_follows {m n : Option Nat} (h : Told m n) (axis : Int64) :
    Outcome.Follows (fun _ _ => True) (demandAxis m axis) (demandAxis n axis) := by
  cases m with
  | none => exact fun _ _ => .inr ⟨(), rfl, trivial⟩
  | some m =>
    rw [h m rfl]
    exact (Outcome.follows_refl _).mono fun _ _ _ => trivial

end Normalization

open Normalization

def demandVector (inputs : SymInputs) (i : Nat) : Outcome RuleError Unit := do
  let _ ← (← inputs.demand i).shape.declareRank 1

theorem demandVector_follows (h : Fit names whole sym conc) (i : Nat) :
    Outcome.Follows (fun _ _ => True) (demandVector sym i) (demandVector conc i) :=
  (h.demand i).bind fun _ _ hx => (hx.shape.declareRank 1).bind fun _ _ _ =>
    Outcome.follows_ok trivial

theorem BatchNormalization.infer_eq (inputs : SymInputs) :
    BatchNormalization.infer inputs = (do
      let x ← inputs.demand 0
      demandVector inputs 1
      demandVector inputs 2
      demandVector inputs 3
      demandVector inputs 4
      return [← demandFloat x 2]) := by
  unfold BatchNormalization.infer demandVector
  refine bind_congr fun x => ?_
  simp only [List.forIn_cons, List.forIn_nil, bind_assoc, Outcome.pure_eq, Outcome.ok_bind]

theorem BatchNormalization.infer_follows (h : Fit names whole sym conc) :
    Outcome.Follows (List.Forall₂ (Fits names)) (BatchNormalization.infer sym)
      (BatchNormalization.infer conc) := by
  rw [infer_eq, infer_eq]
  refine (h.demand 0).bind fun x u hx => (demandVector_follows h 1).bind fun _ _ _ => ?_
  refine (demandVector_follows h 2).bind fun _ _ _ => ?_
  refine (demandVector_follows h 3).bind fun _ _ _ => ?_
  refine (demandVector_follows h 4).bind fun _ _ _ => ?_
  exact (demandFloat_follows hx 2).bind fun _ _ hout => follows_single hout

theorem InstanceNormalization.infer_follows (h : Fit names whole sym conc) :
    Outcome.Follows (List.Forall₂ (Fits names)) (InstanceNormalization.infer sym)
      (InstanceNormalization.infer conc) := by
  refine (h.demand 0).bind fun x u hx => (h.demand 1).bind fun s s' hs => ?_
  refine (hs.shape.declareRank 1).bind fun _ _ _ => (h.demand 2).bind fun b b' hb => ?_
  refine (hb.shape.declareRank 1).bind fun _ _ _ => ?_
  exact (demandFloat_follows hx 3).bind fun _ _ hout => follows_single hout

theorem Lrn.infer_follows (op : Lrn) (h : Fit names whole sym conc) :
    Outcome.Follows (List.Forall₂ (Fits names)) (op.infer sym) (op.infer conc) := by
  refine (h.demand 0).bind fun x u hx => Outcome.follows_bind_same fun _ _ => ?_
  exact (demandFloat_follows hx 2).bind fun _ _ hout => follows_single hout

theorem LayerNormalization.infer_eq (op : LayerNormalization) (inputs : SymInputs) :
    op.infer inputs = (do
      let x ← inputs.demand 0
      let _ ← inputs.demand 1
      let output ← demandFloat x 1
      demandAxis x.rank? op.axis
      return [output]) := by
  unfold infer
  refine bind_congr fun x => bind_congr fun _ => bind_congr fun _ => ?_
  cases x.rank? <;> simp [demandAxis]

theorem LayerNormalization.infer_follows (op : LayerNormalization) (h : Fit names whole sym conc) :
    Outcome.Follows (List.Forall₂ (Fits names)) (op.infer sym) (op.infer conc) := by
  rw [infer_eq, infer_eq]
  refine (h.demand 0).bind fun x u hx => (h.demand 1).bind fun _ _ _ => ?_
  refine (demandFloat_follows hx 1).bind fun _ _ hout => ?_
  exact (demandAxis_follows hx.shape.rank? op.axis).bind fun _ _ _ => follows_single hout

theorem Softmax.infer_eq (op : Softmax) (inputs : SymInputs) : op.infer inputs = (do
    let x ← inputs.demand 0
    let output ← demandFloat x 1
    demandAxis x.rank? op.axis
    return [output]) := by
  unfold infer
  refine bind_congr fun x => bind_congr fun _ => ?_
  cases x.rank? <;> simp [demandAxis]

theorem Softmax.infer_follows (op : Softmax) (h : Fit names whole sym conc) :
    Outcome.Follows (List.Forall₂ (Fits names)) (op.infer sym) (op.infer conc) := by
  rw [infer_eq, infer_eq]
  refine (h.demand 0).bind fun x u hx => (demandFloat_follows hx 1).bind fun _ _ hout => ?_
  exact (demandAxis_follows hx.shape.rank? op.axis).bind fun _ _ _ => follows_single hout

namespace MatMul

def PartsCover (names : Names) (p q : List SymDim × List SymDim × SymDim) : Prop :=
  List.Forall₂ (SymDim.Covers names) p.1 q.1 ∧ List.Forall₂ (SymDim.Covers names) p.2.1 q.2.1 ∧
    p.2.2.Covers names q.2.2

theorem splitLeft_covers {ds cs : List SymDim} (h : List.Forall₂ (SymDim.Covers names) ds cs) :
    PartsCover names (splitLeft ds) (splitLeft cs) := by
  have hlong : PartsCover names
      (ds.take (ds.length - 2), (ds.drop (ds.length - 2)).take 1, ds.getLastD .unknown)
      (cs.take (cs.length - 2), (cs.drop (cs.length - 2)).take 1, cs.getLastD .unknown) := by
    rw [h.length_eq]
    exact ⟨List.forall₂_take _ h, List.forall₂_take _ (List.forall₂_drop _ h),
      Related.getLastD h (SymDim.covers_unknown _)⟩
  cases h with
  | nil => exact hlong
  | cons hd hs =>
    cases hs with
    | nil => exact ⟨.nil, .nil, hd⟩
    | cons _ _ => exact hlong

theorem splitRight_covers {ds cs : List SymDim} (h : List.Forall₂ (SymDim.Covers names) ds cs) :
    PartsCover names (splitRight ds) (splitRight cs) := by
  have hlong : PartsCover names
      (ds.take (ds.length - 2), ds.drop (ds.length - 1), ds.getD (ds.length - 2) .unknown)
      (cs.take (cs.length - 2), cs.drop (cs.length - 1), cs.getD (cs.length - 2) .unknown) := by
    rw [h.length_eq]
    exact ⟨List.forall₂_take _ h, List.forall₂_drop _ h,
      Related.getD h (SymDim.covers_unknown _) _⟩
  cases h with
  | nil => exact hlong
  | cons hd hs =>
    cases hs with
    | nil => exact ⟨.nil, .nil, hd⟩
    | cons _ _ => exact hlong

/-- Where the rank of a factor is unknown, nothing is told but the type. -/
theorem unranked_follows (dtype : DataType) (c d : SymShape) :
    Outcome.Follows (List.Forall₂ (Fits names))
      (.ok [.unranked dtype] : Outcome RuleError (List SymTensor))
      (match c, d with
        | .ranked left, .ranked right => do
          .refuseIf (left.isEmpty ∨ right.isEmpty) (.rank .scalarFactor)
          let (batchA, rows, inner) := splitLeft left
          let (batchB, columns, facing) := splitRight right
          let _ ← inner.refine facing
          let batch ← SymShape.broadcast [.ranked batchA, .ranked batchB]
          return [.ofShape dtype (.ranked (batch.dims ++ rows ++ columns))]
        | _, _ => return [.unranked dtype]) := by
  refine follows_unranked fun ws hws => ?_
  cases c <;> cases d
  case ranked.ranked =>
    obtain ⟨_, -, hws⟩ := Outcome.bind_eq_ok.mp hws
    obtain ⟨_, -, hws⟩ := Outcome.bind_eq_ok.mp hws
    obtain ⟨_, -, hws⟩ := Outcome.bind_eq_ok.mp hws
    exact ⟨_, (Outcome.ok.inj hws).symm, rfl⟩
  all_goals exact ⟨_, (Outcome.ok.inj hws).symm, rfl⟩

theorem infer_follows (h : Fit names whole sym conc) :
    Outcome.Follows (List.Forall₂ (Fits names)) (infer sym) (infer conc) := by
  refine (h.demand 0).bind fun a u ha => (h.demand 1).bind fun b v hb => ?_
  rw [ha.dtype, hb.dtype]
  refine Outcome.follows_bind_same fun _ _ => ?_
  have hs := ha.shape
  have ht := hb.shape
  generalize a.shape = s at hs ⊢
  generalize u.shape = c at hs ⊢
  generalize b.shape = t at ht ⊢
  generalize v.shape = d at ht ⊢
  cases s with
  | unknown => exact unranked_follows u.dtype c d
  | ranked ds =>
    cases t with
    | unknown => exact unranked_follows u.dtype c d
    | ranked es =>
      obtain ⟨cs, rfl, hd⟩ := hs
      obtain ⟨fs, rfl, he⟩ := ht
      have hempty : ∀ {ds cs : List SymDim}, List.Forall₂ (SymDim.Covers names) ds cs →
          ds.isEmpty = cs.isEmpty := by
        intro ds cs h
        cases h <;> rfl
      simp only [hempty hd, hempty he]
      refine Outcome.follows_bind_same fun _ _ => ?_
      obtain ⟨hbatchA, hrows, hinner⟩ := splitLeft_covers hd
      obtain ⟨hbatchB, hcolumns, hfacing⟩ := splitRight_covers he
      refine (hinner.refine hfacing).bind fun _ _ _ => ?_
      refine (SymShape.broadcast_follows (.cons (SymShape.ranked_covers_ranked.mpr hbatchA)
        (.cons (SymShape.ranked_covers_ranked.mpr hbatchB) .nil))).bind_ok
          fun r r' hr hok _ => ?_
      obtain ⟨bs, rfl⟩ := SymShape.broadcast_ranked (by simp) hok
      obtain ⟨bs', rfl, hbatch⟩ := hr
      refine follows_single (fits_ofShape rfl (SymShape.ranked_covers_ranked.mpr ?_))
      exact Related.append (Related.append hbatch hrows) hcolumns

end MatMul

namespace Gemm

theorem matrixDims_follows {t u : SymTensor} (h : Fits names t u) (transposed : Bool) :
    Outcome.Follows (fun a b => a.1.Covers names b.1 ∧ a.2.Covers names b.2)
      (matrixDims t transposed) (matrixDims u transposed) := by
  refine (h.shape.declareRank 2).bind fun s c hs => ?_
  cases transposed
  · exact Outcome.follows_ok ⟨hs.dim 0, hs.dim 1⟩
  · exact Outcome.follows_ok ⟨hs.dim 1, hs.dim 0⟩

theorem infer_follows (op : Gemm) (h : Fit names whole sym conc) :
    Outcome.Follows (List.Forall₂ (Fits names)) (op.infer sym) (op.infer conc) := by
  refine (h.demand 0).bind fun a u ha => (h.demand 1).bind fun b v hb => ?_
  refine (Outcome.follows_refuseIf (h.given_types rfl)).bind fun _ _ _ => ?_
  refine (matrixDims_follows ha op.transA).bind ?_
  rintro ⟨m, k⟩ ⟨m', k'⟩ ⟨hm, hk⟩
  refine (matrixDims_follows hb op.transB).bind ?_
  rintro ⟨d, n⟩ ⟨d', n'⟩ ⟨hd, hn⟩
  refine (hk.refine hd).bind fun _ _ _ => ?_
  have hproduct : (SymShape.ranked [m, n]).Covers names (.ranked [m', n']) :=
    SymShape.ranked_covers_ranked.mpr (.cons hm (.cons hn .nil))
  have hc := h.find? 2
  generalize Inputs.find? sym 2 = c at hc ⊢
  generalize Inputs.find? conc 2 = c' at hc ⊢
  cases hc with
  | none => exact follows_single (fits_ofShape rfl hproduct)
  | some hc =>
    refine (Outcome.follows_refuseIf hc.shape.rank?.any).bind fun _ _ _ => ?_
    refine (SymShape.broadcast_follows (.cons hc.shape (.cons hproduct .nil))).bind
      fun s s' hs => ?_
    exact (hproduct.refine hs).bind fun r r' hr => follows_single (fits_ofShape rfl hr)

end Gemm

end TensorGraph
