import TensorGraph.Proofs.Axes
import TensorGraph.Proofs.Covering.Inputs
import TensorGraph.Reduction.Basic
import TensorGraph.Reduction.Ranking
import TensorGraph.Reduction.RunningSum

/-! The shape rules of operators that join, compare or sum up the elements of lanes. -/

namespace TensorGraph

open SymTensor SymInputs

variable {names : Names} {whole : List Nat} {sym conc : SymInputs}

theorem SymShape.length_kept (ds : List SymDim) (reduced : List Nat) :
    (ds.zipIdx.filterMap fun (d, i) =>
      if !reduced.contains i then some d else if true then some (.size 1) else none).length =
        ds.length := by
  rw [List.filterMap_length_eq_length.mpr, List.length_zipIdx]
  rintro ⟨d, i⟩ -
  dsimp only
  cases (!reduced.contains i) <;> rfl

theorem SymShape.rank?_reduce_keep {s r : SymShape} {axes : Option (List Int64)}
    (h : s.reduce axes true = .ok r) {n : Nat} (hs : s.rank? = some n) : r.rank? = some n := by
  cases s with
  | unknown => simp at hs
  | ranked ds =>
    cases axes with
    | none =>
      cases h
      rw [rank?_ranked, length_kept]
      exact hs
    | some axes =>
      obtain ⟨reduced, -, h⟩ := Outcome.bind_eq_ok.mp h
      cases h
      rw [rank?_ranked, length_kept]
      exact hs

namespace Reduce

def joined (op : Reduce) (x : SymTensor) (axes : Axes) (s : SymShape) : SymTensor :=
  if op.reduction.folds && x.dtype = .int && joinsAll x axes then
    match x.ints? with
    | some ns => (SymTensor.ofShape x.dtype s).set 0 (.int (op.reduction.onInts ns))
    | none => .ofShape x.dtype s
  else .ofShape x.dtype s

theorem joined_cases (op : Reduce) (x : SymTensor) (axes : Axes) (s : SymShape) :
    op.joined x axes s = .ofShape x.dtype s ∨
      ∃ e, op.joined x axes s = (SymTensor.ofShape x.dtype s).set 0 e := by
  unfold joined
  split_ifs
  · cases x.ints? with
    | none => exact .inl rfl
    | some ns => exact .inr ⟨_, rfl⟩
  · exact .inl rfl

theorem infer_eq (op : Reduce) (inputs : SymInputs) : op.infer inputs = (do
    let x ← inputs.demand 0
    let axes := op.selectAxes ((Inputs.find? inputs 1).map (·.ints?))
    if axes = .keep then return [x]
    else return [op.joined x axes (← op.outputShape x axes)]) := by
  unfold infer
  refine bind_congr fun x => ?_
  dsimp only
  generalize op.selectAxes ((Inputs.find? inputs 1).map (·.ints?)) = axes
  by_cases hkeep : axes = .keep
  · simp only [hkeep, if_true]
  · simp only [hkeep, if_false]
    by_cases hfold : (op.reduction.folds && x.dtype = .int && joinsAll x axes) = true
    · simp only [joined, hfold, if_true]
      exact bind_congr fun s => by cases x.ints? <;> rfl
    · simp only [joined, hfold]
      exact bind_congr fun s => by simp

theorem outputShape_rank {op : Reduce} {x : SymTensor} {axes : Axes} {s : SymShape}
    (hkeep : op.keepDims = true) (h : op.outputShape x axes = .ok s) {n : Nat}
    (hx : x.rank? = some n) : s.rank? = some n := by
  cases axes with
  | unknown =>
    simp only [outputShape, hx, hkeep, if_true, Outcome.ok.injEq] at h
    rw [← h, SymShape.rank?_ofRank]
  | keep =>
    cases h
    exact hx
  | all | some _ =>
    simp only [outputShape, hkeep] at h
    exact SymShape.rank?_reduce_keep h hx

theorem selectAxes_told (op : Reduce) {t u : Option SymTensor}
    (h : Option.Rel (FitsWhole names) t u) :
    op.selectAxes (t.map (·.ints?)) = .unknown ∨
      op.selectAxes (t.map (·.ints?)) = op.selectAxes (u.map (·.ints?)) := by
  cases h with
  | none => exact .inr rfl
  | @some a b hab =>
    cases hns : a.ints? with
    | none =>
      cases haxes : op.axes with
      | none => exact .inl (by simp [selectAxes, haxes, hns])
      | some axes => exact .inr (by simp [selectAxes, haxes])
    | some ns => exact .inr (by simp [hns, hab.ints? ns hns])

theorem outputShape_follows (op : Reduce) {x u : SymTensor} (hx : Fits names x u)
    {axes axes' : Axes} (h : axes = .unknown ∨ axes = axes') :
    Outcome.Follows (SymShape.Covers names) (op.outputShape x axes)
      (op.outputShape u axes') := by
  rcases h with rfl | rfl
  · cases hr : x.rank? with
    | none => simpa only [outputShape, hr] using SymShape.follows_unknown _
    | some n =>
      rw [show op.outputShape x .unknown =
        .ok (if op.keepDims then .ofRank n else .unknown) by simp only [outputShape, hr]]
      by_cases hkeep : op.keepDims = true
      · intro s hs
        refine .inr ⟨.ofRank n, by rw [if_pos hkeep], SymShape.ofRank_covers_of_rank? ?_⟩
        exact outputShape_rank hkeep hs (hx.shape.rank? n hr)
      · rw [if_neg hkeep]
        exact SymShape.follows_unknown _
  · cases axes with
    | unknown =>
      have hrank := hx.shape.rank?
      cases hr : x.rank? with
      | none => simpa only [outputShape, hr] using SymShape.follows_unknown _
      | some n =>
        have hu : u.rank? = some n := hrank n hr
        simp only [outputShape, hr, hu]
        split_ifs
        · exact Outcome.follows_ok (SymShape.ofRank_covers_ofRank n)
        · exact SymShape.follows_unknown _
    | keep => exact Outcome.follows_ok hx.shape
    | all | some _ => exact hx.shape.reduce _ _

theorem infer_follows (op : Reduce) (h : Fit names whole sym conc) (hwhole : 1 ∈ whole) :
    Outcome.Follows (List.Forall₂ (Fits names)) (op.infer sym) (op.infer conc) := by
  rw [infer_eq, infer_eq]
  refine (h.demand 0).bind fun x u hx => ?_
  have haxes := op.selectAxes_told (h.whole 1 hwhole)
  generalize op.selectAxes ((Inputs.find? sym 1).map (·.ints?)) = axes at haxes ⊢
  generalize op.selectAxes ((Inputs.find? conc 1).map (·.ints?)) = axes' at haxes ⊢
  have hresult : ∀ (w : SymTensor) (s : SymShape), w.dtype = u.dtype → s.Covers names w.shape →
      Fits names (op.joined x axes s) w := by
    intro w s hw hs
    have hout := ofShape_fits (hx.dtype.trans hw.symm) hs
    rcases op.joined_cases x axes s with hj | ⟨e, hj⟩ <;> rw [hj]
    · exact hout
    · exact hout.set 0 e
  by_cases hkeep : axes = .keep
  · have hkeep' : axes' = .keep := by
      rcases haxes with h | h
      · rw [hkeep] at h
        cases h
      · rw [← h, hkeep]
    simp only [hkeep, hkeep', if_true]
    exact follows_single hx
  · simp only [hkeep, if_false]
    by_cases hkeep' : axes' = .keep
    · have hunknown : axes = .unknown := haxes.resolve_right fun h => hkeep (h.trans hkeep')
      have hshape := @outputShape_follows _ op _ _ hx _ .keep (.inl hunknown)
      simp only [hkeep', if_true]
      intro ws hws
      cases hws
      rcases hshape u.shape rfl with hf | ⟨s, hs, hcover⟩
      · exact .inl (by simp [hf])
      · exact .inr ⟨_, by rw [hs, Outcome.ok_bind]; rfl, .cons (hresult u s rfl hcover) .nil⟩
    · simp only [hkeep', if_false]
      refine (op.outputShape_follows hx haxes).bind fun s c hs => follows_single ?_
      refine (hresult (.ofShape u.dtype c) s rfl hs).congr_right ?_ ?_
      all_goals
        rcases op.joined_cases u axes' c with hj | ⟨e, hj⟩
        · rw [hj]
        · rw [hj]
          rfl

end Reduce

namespace ArgReduce

def demandElements (op : ArgReduce) (x : SymTensor) : Outcome RuleError Unit :=
  match x.rank? with
  | some rank => do
    let dim ← Axis.resolve rank op.axis
    .refuseIf (x.shape.dim dim = .size 0) (.value .emptyAxis)
  | none => .ok ()

theorem infer_eq (op : ArgReduce) (inputs : SymInputs) : op.infer inputs = (do
    let x ← inputs.demand 0
    op.demandElements x
    return [.ofShape .int (← x.shape.reduce (some [op.axis]) op.keepDims)]) := by
  unfold infer
  refine bind_congr fun x => ?_
  unfold demandElements
  cases x.rank? with
  | none => rfl
  | some rank => simp only [bind_assoc]

theorem infer_follows (op : ArgReduce) (h : Fit names whole sym conc) :
    Outcome.Follows (List.Forall₂ (Fits names)) (op.infer sym) (op.infer conc) := by
  rw [infer_eq, infer_eq]
  refine (h.demand 0).bind fun x u hx => ?_
  have helements : Outcome.Follows (fun _ _ => True) (op.demandElements x)
      (op.demandElements u) := by
    unfold demandElements
    cases hr : x.rank? with
    | none => exact fun _ _ => .inr ⟨(), rfl, trivial⟩
    | some n =>
      rw [show u.rank? = some n from hx.shape.rank? n hr]
      refine Outcome.follows_bind_same fun dim _ => Outcome.follows_refuseIf fun hzero => ?_
      have hdim := hx.shape.dim dim
      rw [hzero, SymDim.covers_size] at hdim
      exact hdim
  refine helements.bind fun _ _ _ => ?_
  exact (hx.shape.reduce _ _).bind fun s c hs => follows_single (fits_ofShape rfl hs)

end ArgReduce

namespace TopK

theorem takenDim_follows {t u : SymTensor} (h : FitsWhole names t u) :
    Outcome.Follows (SymDim.Covers names) (takenDim t) (takenDim u) := by
  unfold takenDim
  cases hns : t.ints? with
  | none => exact SymDim.follows_unknown _
  | some ns =>
    rw [h.ints? ns hns]
    match ns with
    | [] | _ :: _ :: _ => exact Outcome.follows_error _ _
    | [n] =>
      dsimp only
      split_ifs
      · exact Outcome.follows_error _ _
      · exact Outcome.follows_ok rfl

/-- Refuses to take more elements than an axis is known to have. -/
def demandCount (taken size : SymDim) : Outcome RuleError Unit :=
  match taken.value?, size.value? with
  | some k, some size => .refuseIf (size < k) (.value .largeCount)
  | _, _ => .ok ()

theorem demandCount_follows {d e c f : SymDim} (hd : d.Covers names c) (he : e.Covers names f) :
    Outcome.Follows (fun _ _ => True) (demandCount d e) (demandCount c f) := by
  have hskip : ∀ y : Outcome RuleError Unit,
      Outcome.Follows (fun _ _ => True) (.ok () : Outcome RuleError Unit) y :=
    fun _ _ _ => .inr ⟨(), rfl, trivial⟩
  unfold demandCount
  cases hk : d.value? with
  | none => exact hskip _
  | some k =>
    cases hn : e.value? with
    | none => exact hskip _
    | some n =>
      rw [hd.value? k hk, he.value? n hn]
      exact (Outcome.follows_refl _).mono fun _ _ _ => trivial

theorem outputShape_eq (op : TopK) (s : SymShape) (taken : SymDim) :
    op.outputShape s taken = match s.rank? with
      | none => .ok s
      | some rank => do
        let dim ← Axis.resolve rank op.axis
        demandCount taken (s.dim dim)
        return s.setDim dim taken := by
  unfold outputShape
  cases s.rank? with
  | none => rfl
  | some rank =>
    refine bind_congr fun dim => ?_
    unfold demandCount
    cases taken.value? <;> cases (s.dim dim).value? <;> rfl

theorem outputShape_follows (op : TopK) {s c : SymShape} (hs : s.Covers names c) {d e : SymDim}
    (hd : d.Covers names e) :
    Outcome.Follows (SymShape.Covers names) (op.outputShape s d) (op.outputShape c e) := by
  rw [outputShape_eq, outputShape_eq]
  cases s with
  | unknown => exact SymShape.follows_unknown _
  | ranked ds =>
    rw [SymShape.rank?_ranked, hs.rank? ds.length rfl]
    refine Outcome.follows_bind_same fun dim _ => ?_
    refine (demandCount_follows hd (hs.dim dim)).bind fun _ _ _ => ?_
    exact Outcome.follows_ok (hs.setDim hd dim)

theorem infer_follows (op : TopK) (h : Fit names whole sym conc) (hwhole : 1 ∈ whole) :
    Outcome.Follows (List.Forall₂ (Fits names)) (op.infer sym) (op.infer conc) := by
  refine (h.demand 0).bind fun x u hx => (h.demandWhole hwhole).bind fun t v ht => ?_
  refine (takenDim_follows ht).bind fun d e hd => ?_
  refine (op.outputShape_follows hx.shape hd).bind fun s c hs => ?_
  exact Outcome.follows_ok (.cons (fits_ofShape hx.dtype hs) (.cons (fits_ofShape rfl hs) .nil))

end TopK

theorem CumSum.infer_follows (h : Fit names whole sym conc) (hwhole : 1 ∈ whole) :
    Outcome.Follows (List.Forall₂ (Fits names)) (CumSum.infer sym) (CumSum.infer conc) := by
  refine (h.demand 0).bind fun x u hx => (h.demandWhole hwhole).bind fun t v ht => ?_
  have hsame : Outcome.Follows (List.Forall₂ (Fits names))
      (.ok [x.sameShape x.dtype] : Outcome RuleError (List SymTensor))
      (.ok [u.sameShape u.dtype] : Outcome RuleError (List SymTensor)) :=
    follows_single (hx.dtype ▸ hx.sameShape x.dtype)
  cases hr : x.rank? with
  | none =>
    cases u.rank? with
    | none => exact hsame
    | some n =>
      cases v.singleInt? with
      | none => exact hsame
      | some axis => exact Outcome.follows_bind_right fun _ _ => hsame
  | some n =>
    rw [show u.rank? = some n from hx.shape.rank? n hr]
    cases hn : t.singleInt? with
    | none =>
      cases v.singleInt? with
      | none => exact hsame
      | some axis => exact Outcome.follows_bind_right fun _ _ => hsame
    | some axis =>
      rw [ht.singleInt? axis hn]
      exact Outcome.follows_bind_same fun _ _ => hsame

end TensorGraph
