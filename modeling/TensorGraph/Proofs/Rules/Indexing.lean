import TensorGraph.Indexing.Scatter
import TensorGraph.Indexing.Selection
import TensorGraph.Proofs.Axes
import TensorGraph.Proofs.Covering.Inputs

/-! The shape rules of operators that pick or replace elements at indices, or select elements by
their value. -/

namespace TensorGraph

open SymTensor SymInputs

variable {names : Names} {whole : List Nat} {sym conc : SymInputs}

namespace Indexing

theorem demandInts_follows {t u : SymTensor} (h : Fits names t u) :
    Outcome.Follows (fun _ _ => True) (demandInts t) (demandInts u) := by
  rw [demandInts, demandInts, h.dtype]
  exact (Outcome.follows_refl _).mono fun _ _ _ => trivial

/-- Refuses an axis of indices whose rank is known not to be that of the data. -/
def demandAxis (axis : Int64) : Option Nat → Option Nat → Outcome RuleError Unit
  | some rank, some indexRank => do
    .refuseIf (rank ≠ indexRank) (.rank .indexRank)
    let _ ← Axis.resolve rank axis
  | _, _ => .ok ()

theorem demandAxis_follows (axis : Int64) {m n m' n' : Option Nat} (h : Told m m')
    (h' : Told n n') :
    Outcome.Follows (fun _ _ => True) (demandAxis axis m n) (demandAxis axis m' n') := by
  have hskip : ∀ y : Outcome RuleError Unit,
      Outcome.Follows (fun _ _ => True) (.ok () : Outcome RuleError Unit) y :=
    fun _ _ _ => .inr ⟨(), rfl, trivial⟩
  cases m with
  | none => exact hskip _
  | some m =>
    cases n with
    | none => exact hskip _
    | some n =>
      rw [h m rfl, h' n rfl]
      exact (Outcome.follows_refl _).mono fun _ _ _ => trivial

end Indexing

namespace Gather

/-- Whether each known index of a vector that inference picks from lies inside the vector. -/
def Picks (sym : SymInputs) : Prop :=
  ∀ x t es cs, Inputs.find? sym 0 = some x → Inputs.find? sym 1 = some t → x.elements = some es →
    t.elements = some cs → x.rank? = some 1 →
      ∀ n, .int n ∈ cs → ∃ k, Indexing.resolve es.length n = .ok k

theorem foldlM_pick {es : List SymElement} {entries : List (SymElement × Nat)}
    {P : SymTensor → Prop} {out t : SymTensor} (h : entries.foldlM (pick es) out = .ok t)
    (hset : ∀ t i e, P t → P (t.set i e)) (hout : P out) : P t := by
  refine Outcome.foldlM_keeps (fun s u entry _ hs hu => ?_) hout h
  unfold pick at hu
  cases hint : entry.1.int? with
  | none =>
    rw [hint] at hu
    exact Outcome.ok.inj hu ▸ hs
  | some n =>
    rw [hint] at hu
    obtain ⟨k, -, hu⟩ := Outcome.bind_eq_ok.mp hu
    exact Outcome.ok.inj hu ▸ hset s _ _ hs

theorem foldlM_pick_ne_error {es cs : List SymElement} {out : SymTensor}
    (h : ∀ n, .int n ∈ cs → ∃ k, Indexing.resolve es.length n = .ok k) (e : RuleError) :
    cs.zipIdx.foldlM (pick es) out ≠ .error e := by
  refine Outcome.foldlM_ne_error (fun s entry hmem => ?_) out
  unfold pick
  cases hint : entry.1.int? with
  | none => simp
  | some n =>
    have hn : .int n ∈ cs := by
      have hentry : entry.1 = .int n := by
        cases he : entry.1 <;> simp_all [SymElement.int?]
      exact hentry ▸ (List.mem_zipIdx' hmem).2 ▸ List.getElem_mem _
    obtain ⟨k, hk⟩ := h n hn
    simp [hk, Outcome.mapError]

def result (op : Gather) (x t : SymTensor) (ds ids : List SymDim) :
    Outcome RuleError (List SymTensor) := do
  let dim ← Axis.resolve ds.length op.axis
  let output := SymTensor.ofShape x.dtype (.ranked (ds.take dim ++ ids ++ ds.drop (dim + 1)))
  match x.elements, t.elements with
  | some elements, some entries =>
    if ds.length = 1 then return [← entries.zipIdx.foldlM (pick elements) output]
    else return [output]
  | _, _ => return [output]

theorem infer_eq (op : Gather) (inputs : SymInputs) : op.infer inputs = (do
    let x ← inputs.demand 0
    let indices ← inputs.demand 1
    Indexing.demandInts indices
    match x.shape, indices.shape with
    | .ranked ds, .ranked ids => op.result x indices ds ids
    | _, _ => return [.unranked x.dtype]) := by
  unfold infer
  refine bind_congr fun x => bind_congr fun t => bind_congr fun _ => ?_
  cases x.shape <;> cases t.shape <;> rfl

/-- The result has the type of the data and lists the indices in place of the axis. -/
theorem result_ok {op : Gather} {x t : SymTensor} {ds ids : List SymDim} {ws : List SymTensor}
    (h : op.result x t ds ids = .ok ws) : ∃ dim w, Axis.resolve ds.length op.axis = .ok dim ∧
      ws = [w] ∧ w.dtype = x.dtype ∧
        w.shape = .ranked (ds.take dim ++ ids ++ ds.drop (dim + 1)) := by
  obtain ⟨dim, hdim, h⟩ := Outcome.bind_eq_ok.mp h
  refine ⟨dim, ?_⟩
  cases hx : x.elements with
  | none =>
    rw [hx] at h
    exact ⟨_, hdim, (Outcome.ok.inj h).symm, rfl, rfl⟩
  | some es =>
    cases ht : t.elements with
    | none =>
      rw [hx, ht] at h
      exact ⟨_, hdim, (Outcome.ok.inj h).symm, rfl, rfl⟩
    | some cs =>
      rw [hx, ht] at h
      dsimp only at h
      split_ifs at h with hrank
      · obtain ⟨w, hw, h⟩ := Outcome.bind_eq_ok.mp h
        have hkeep := foldlM_pick (P := fun w => w.dtype = x.dtype ∧
          w.shape = .ranked (ds.take dim ++ ids ++ ds.drop (dim + 1))) hw (fun _ _ _ hP => hP)
          ⟨rfl, rfl⟩
        exact ⟨w, hdim, (Outcome.ok.inj h).symm, hkeep⟩
      · exact ⟨_, hdim, (Outcome.ok.inj h).symm, rfl, rfl⟩

theorem result_follows (op : Gather) {x t u v : SymTensor} (hx : Fits names x u)
    {ds ids cs jds : List SymDim} (hd : List.Forall₂ (SymDim.Covers names) ds cs)
    (hi : List.Forall₂ (SymDim.Covers names) ids jds)
    (hpick : ∀ es es', x.elements = some es → t.elements = some es' → ds.length = 1 →
      ∀ n, .int n ∈ es' → ∃ k, Indexing.resolve es.length n = .ok k) :
    Outcome.Follows (List.Forall₂ (Fits names)) (op.result x t ds ids) (op.result u v cs jds) := by
  intro ws hws
  obtain ⟨dim, w, hdim, rfl, hdtype, hshape⟩ := result_ok hws
  have hcover : (SymShape.ranked (ds.take dim ++ ids ++ ds.drop (dim + 1))).Covers names
      w.shape := by
    rw [hshape, SymShape.ranked_covers_ranked]
    exact Related.append (Related.append (List.forall₂_take dim hd) hi)
      (List.forall₂_drop (dim + 1) hd)
  have hout := ofShape_fits (hx.dtype.trans hdtype.symm) hcover
  rw [result, hd.length_eq, hdim, Outcome.ok_bind]
  cases hxe : x.elements with
  | none => exact .inr ⟨_, rfl, .cons hout .nil⟩
  | some es =>
    cases hte : t.elements with
    | none => exact .inr ⟨_, rfl, .cons hout .nil⟩
    | some es' =>
      dsimp only
      split_ifs with hrank
      · cases hfold : es'.zipIdx.foldlM (pick es)
            (.ofShape x.dtype (.ranked (ds.take dim ++ ids ++ ds.drop (dim + 1)))) with
        | error e =>
          exact absurd hfold (foldlM_pick_ne_error (hpick es es' hxe hte (hd.length_eq ▸ hrank)) e)
        | fault => exact .inl rfl
        | ok w' =>
          have hfits := foldlM_pick (P := fun w' => Fits names w' w) hfold
            (fun _ i e hP => hP.set i e) hout
          exact .inr ⟨[w'], rfl, .cons hfits .nil⟩
      · exact .inr ⟨_, rfl, .cons hout .nil⟩

theorem infer_follows (op : Gather) (h : Fit names whole sym conc) (hpick : Picks sym) :
    Outcome.Follows (List.Forall₂ (Fits names)) (op.infer sym) (op.infer conc) := by
  rw [infer_eq, infer_eq]
  refine (h.demand 0).bind_ok fun x u hx hsx _ => (h.demand 1).bind_ok fun t v ht hst _ => ?_
  refine (Indexing.demandInts_follows ht).bind fun _ _ _ => ?_
  have hunranked : Outcome.Follows (List.Forall₂ (Fits names))
      (.ok [.unranked x.dtype] : Outcome RuleError (List SymTensor))
      (match u.shape, v.shape with
        | .ranked ds, .ranked ids => op.result u v ds ids
        | _, _ => return [.unranked u.dtype]) := by
    refine follows_unranked fun ws hws => ?_
    cases hu : u.shape <;> cases hv : v.shape <;> rw [hu, hv] at hws
    case ranked.ranked =>
      obtain ⟨-, w, -, rfl, hdtype, -⟩ := result_ok hws
      exact ⟨w, rfl, hdtype.trans hx.dtype.symm⟩
    all_goals exact ⟨_, (Outcome.ok.inj hws).symm, hx.dtype.symm⟩
  cases hs : x.shape with
  | unknown => exact hunranked
  | ranked ds =>
    cases hr : t.shape with
    | unknown => exact hunranked
    | ranked ids =>
      obtain ⟨cs, hc, hd⟩ := hs ▸ hx.shape
      obtain ⟨jds, hj, hi⟩ := hr ▸ ht.shape
      rw [hc, hj]
      refine op.result_follows hx hd hi fun es es' hes hes' hrank n hn => ?_
      refine hpick x t es es' (demand_eq_ok.mp hsx) (demand_eq_ok.mp hst) hes hes' ?_ n hn
      rw [SymTensor.rank?, hs, SymShape.rank?_ranked, hrank]

end Gather

theorem GatherElements.infer_eq (op : GatherElements) (inputs : SymInputs) : op.infer inputs = (do
    let x ← inputs.demand 0
    let indices ← inputs.demand 1
    Indexing.demandInts indices
    Indexing.demandAxis op.axis x.rank? indices.rank?
    return [.ofShape x.dtype indices.shape]) := by
  unfold infer
  refine bind_congr fun x => bind_congr fun t => bind_congr fun _ => ?_
  cases x.rank? <;> cases t.rank? <;> simp [Indexing.demandAxis]

theorem GatherElements.infer_follows (op : GatherElements) (h : Fit names whole sym conc) :
    Outcome.Follows (List.Forall₂ (Fits names)) (op.infer sym) (op.infer conc) := by
  rw [infer_eq, infer_eq]
  refine (h.demand 0).bind fun x u hx => (h.demand 1).bind fun t v ht => ?_
  refine (Indexing.demandInts_follows ht).bind fun _ _ _ => ?_
  refine (Indexing.demandAxis_follows op.axis hx.shape.rank? ht.shape.rank?).bind fun _ _ _ => ?_
  exact follows_single (fits_ofShape hx.dtype ht.shape)

namespace GatherND

def result (op : GatherND) (dtype : DataType) (ds ids : List SymDim) :
    Outcome RuleError (List SymTensor) := do
  let b := op.batchDims
  .refuseIf (ids.isEmpty ∨ b ≥ ids.length ∨ b ≥ ds.length) (.rank .batchDims)
  let _ ← ((ds.take b).zip (ids.take b)).mapM fun (d, i) => d.refine i
  match (ids.getLastD .unknown).value? with
  | none => return [.unranked dtype]
  | some length =>
    let taken ← checkSize (b + sizeOfInt length)
    .refuseIf (taken > ds.length) (.shape .longTuples)
    return [.ofShape dtype (.ranked (ids.dropLast ++ ds.drop taken))]

theorem infer_eq (op : GatherND) (inputs : SymInputs) : op.infer inputs = (do
    let x ← inputs.demand 0
    let indices ← inputs.demand 1
    Indexing.demandInts indices
    match x.shape, indices.shape with
    | .ranked ds, .ranked ids => op.result x.dtype ds ids
    | _, _ => return [.unranked x.dtype]) := by
  unfold infer
  refine bind_congr fun x => bind_congr fun t => bind_congr fun _ => ?_
  cases x.shape <;> cases t.shape <;> rfl

theorem result_ok {op : GatherND} {dtype : DataType} {ds ids : List SymDim} {ws : List SymTensor}
    (h : op.result dtype ds ids = .ok ws) : ∃ w, ws = [w] ∧ w.dtype = dtype := by
  obtain ⟨_, -, h⟩ := Outcome.bind_eq_ok.mp h
  obtain ⟨_, -, h⟩ := Outcome.bind_eq_ok.mp h
  cases hlast : (ids.getLastD .unknown).value? with
  | none =>
    rw [hlast] at h
    exact ⟨_, (Outcome.ok.inj h).symm, rfl⟩
  | some length =>
    rw [hlast] at h
    obtain ⟨taken, -, h⟩ := Outcome.bind_eq_ok.mp h
    obtain ⟨_, -, h⟩ := Outcome.bind_eq_ok.mp h
    exact ⟨_, (Outcome.ok.inj h).symm, rfl⟩

theorem result_follows (op : GatherND) (dtype : DataType) {ds ids cs jds : List SymDim}
    (hd : List.Forall₂ (SymDim.Covers names) ds cs)
    (hi : List.Forall₂ (SymDim.Covers names) ids jds) :
    Outcome.Follows (List.Forall₂ (Fits names)) (op.result dtype ds ids)
      (op.result dtype cs jds) := by
  have hempty : ids.isEmpty = jds.isEmpty := by
    cases hi <;> rfl
  rw [result, result, hd.length_eq, hi.length_eq, hempty]
  refine Outcome.follows_bind_same fun _ _ => ?_
  refine (Outcome.follows_mapM (R := SymDim.Covers names) (Related.zip
    (List.forall₂_take op.batchDims hd) (List.forall₂_take op.batchDims hi))
    fun _ _ hxy => hxy.1.refine hxy.2).bind fun _ _ _ => ?_
  have hlast := Related.getLastD hi (@SymDim.covers_unknown names .unknown)
  cases hval : (ids.getLastD .unknown).value? with
  | none =>
    refine follows_unranked fun ws hws => ?_
    cases hlen : (jds.getLastD .unknown).value? with
    | none =>
      rw [hlen] at hws
      exact ⟨_, (Outcome.ok.inj hws).symm, rfl⟩
    | some length =>
      rw [hlen] at hws
      obtain ⟨taken, -, h⟩ := Outcome.bind_eq_ok.mp hws
      obtain ⟨_, -, h⟩ := Outcome.bind_eq_ok.mp h
      exact ⟨_, (Outcome.ok.inj h).symm, rfl⟩
  | some length =>
    rw [hlast.value? length hval]
    refine Outcome.follows_bind_same fun taken _ => Outcome.follows_bind_same fun _ _ => ?_
    refine follows_single (fits_ofShape rfl (SymShape.ranked_covers_ranked.mpr ?_))
    exact Related.append (Related.dropLast hi) (List.forall₂_drop taken hd)

theorem infer_follows (op : GatherND) (h : Fit names whole sym conc) :
    Outcome.Follows (List.Forall₂ (Fits names)) (op.infer sym) (op.infer conc) := by
  rw [infer_eq, infer_eq]
  refine (h.demand 0).bind fun x u hx => (h.demand 1).bind fun t v ht => ?_
  refine (Indexing.demandInts_follows ht).bind fun _ _ _ => ?_
  have hunranked : Outcome.Follows (List.Forall₂ (Fits names))
      (.ok [.unranked x.dtype] : Outcome RuleError (List SymTensor))
      (match u.shape, v.shape with
        | .ranked ds, .ranked ids => op.result u.dtype ds ids
        | _, _ => return [.unranked u.dtype]) := by
    rw [hx.dtype]
    refine follows_unranked fun ws hws => ?_
    cases hu : u.shape <;> cases hv : v.shape <;> rw [hu, hv] at hws
    case ranked.ranked => exact result_ok hws
    all_goals exact ⟨_, (Outcome.ok.inj hws).symm, rfl⟩
  cases hs : x.shape with
  | unknown => exact hunranked
  | ranked ds =>
    cases hr : t.shape with
    | unknown => exact hunranked
    | ranked ids =>
      obtain ⟨cs, hc, hd⟩ := hs ▸ hx.shape
      obtain ⟨jds, hj, hi⟩ := hr ▸ ht.shape
      rw [hc, hj, hx.dtype]
      exact op.result_follows u.dtype hd hi

end GatherND

theorem Scatter.output_follows {x t u v : SymTensor} (hx : Fits names x u) (ht : Fits names t v) :
    Outcome.Follows (Fits names) (output x t) (output u v) := by
  rw [output, output, hx.dtype, ht.dtype]
  exact Outcome.follows_bind_same fun _ _ => Outcome.follows_ok (fits_ofShape rfl hx.shape)

theorem ScatterElements.infer_eq (op : ScatterElements) (inputs : SymInputs) :
    op.infer inputs = (do
      let x ← inputs.demand 0
      let indices ← inputs.demand 1
      let updates ← inputs.demand 2
      Indexing.demandInts indices
      let _ ← indices.shape.refine updates.shape
      Indexing.demandAxis op.axis x.rank? indices.rank?
      return [← Scatter.output x updates]) := by
  unfold infer
  refine bind_congr fun x => bind_congr fun t => bind_congr fun a => ?_
  refine bind_congr fun _ => bind_congr fun _ => ?_
  cases x.rank? <;> cases t.rank? <;> simp [Indexing.demandAxis]

theorem ScatterElements.infer_follows (op : ScatterElements) (h : Fit names whole sym conc) :
    Outcome.Follows (List.Forall₂ (Fits names)) (op.infer sym) (op.infer conc) := by
  rw [infer_eq, infer_eq]
  refine (h.demand 0).bind fun x u hx => (h.demand 1).bind fun t v ht => ?_
  refine (h.demand 2).bind fun a b ha => (Indexing.demandInts_follows ht).bind fun _ _ _ => ?_
  refine (ht.shape.refine ha.shape).bind fun _ _ _ => ?_
  refine (Indexing.demandAxis_follows op.axis hx.shape.rank? ht.shape.rank?).bind fun _ _ _ => ?_
  exact (Scatter.output_follows hx ha).bind fun _ _ hout => follows_single hout

theorem ScatterND.demandShape_follows {s t a c d b : SymShape} (hs : s.Covers names c)
    (ht : t.Covers names d) (ha : a.Covers names b) :
    Outcome.Follows (fun _ _ => True) (demandShape s t a) (demandShape c d b) := by
  have hskip : ∀ y : Outcome RuleError Unit,
      Outcome.Follows (fun _ _ => True) (.ok () : Outcome RuleError Unit) y :=
    fun _ _ _ => .inr ⟨(), rfl, trivial⟩
  cases s with
  | unknown => exact hskip _
  | ranked ds =>
    cases t with
    | unknown => exact hskip _
    | ranked ids =>
      cases a with
      | unknown => exact hskip _
      | ranked us =>
        obtain ⟨cs, rfl, hd⟩ := hs
        obtain ⟨jds, rfl, hi⟩ := ht
        obtain ⟨vs, rfl, hu⟩ := ha
        have hempty : ids.isEmpty = jds.isEmpty := by
          cases hi <;> rfl
        simp only [demandShape, hempty, hd.length_eq]
        refine Outcome.follows_bind_same fun _ _ => ?_
        cases hval : (ids.getLastD .unknown).value? with
        | none => exact hskip _
        | some length =>
          rw [(Related.getLastD hi (SymDim.covers_unknown _)).value? length hval]
          refine Outcome.follows_bind_same fun _ _ => ?_
          have hus : (SymShape.ranked us).Covers names (.ranked vs) :=
            SymShape.ranked_covers_ranked.mpr hu
          refine (hus.refine (SymShape.ranked_covers_ranked.mpr ?_)).bind fun _ _ _ => hskip _
          exact Related.append (Related.dropLast hi) (List.forall₂_drop _ hd)

theorem ScatterND.infer_follows (h : Fit names whole sym conc) :
    Outcome.Follows (List.Forall₂ (Fits names)) (ScatterND.infer sym) (ScatterND.infer conc) := by
  refine (h.demand 0).bind fun x u hx => (h.demand 1).bind fun t v ht => ?_
  refine (h.demand 2).bind fun a b ha => (Indexing.demandInts_follows ht).bind fun _ _ _ => ?_
  refine (demandShape_follows hx.shape ht.shape ha.shape).bind fun _ _ _ => ?_
  exact (Scatter.output_follows hx ha).bind fun _ _ hout => follows_single hout

namespace OneHot

theorem depthDim_follows {t u : SymTensor} (h : FitsWhole names t u) :
    Outcome.Follows (SymDim.Covers names) (depthDim t) (depthDim u) := by
  unfold depthDim
  cases hs : t.single? with
  | none => exact SymDim.follows_unknown _
  | some e =>
    obtain ⟨c, hc, hec⟩ := h.single? hs
    rw [hc]
    cases e with
    | unknown => exact SymDim.follows_unknown _
    | int n =>
      rw [SymElement.covers_int.mp hec]
      dsimp only
      split_ifs
      · exact Outcome.follows_error _ _
      · exact Outcome.follows_ok rfl
    | float bits =>
      rw [SymElement.covers_float.mp hec]
      exact Outcome.follows_ok rfl
    | param p =>
      obtain ⟨n, hn, rfl⟩ := hec
      dsimp only
      split_ifs
      · exact Outcome.follows_error _ _
      · exact Outcome.follows_ok ⟨n, hn, rfl⟩

theorem infer_follows (op : OneHot) (h : Fit names whole sym conc) (hwhole : 1 ∈ whole) :
    Outcome.Follows (List.Forall₂ (Fits names)) (op.infer sym) (op.infer conc) := by
  refine (h.demand 0).bind fun x u hx => (h.demandWhole hwhole).bind fun t v ht => ?_
  refine (h.demand 2).bind fun a b ha => (Indexing.demandInts_follows hx).bind fun _ _ _ => ?_
  refine (ha.shape.declareRank 1).bind fun s c hs => ?_
  have htwo := @SymDim.covers_size_self names 2
  refine ((hs.dim 0).refine htwo).bind fun _ _ _ => (depthDim_follows ht).bind fun d e hde => ?_
  have hshape := hx.shape
  generalize x.shape = r at hshape ⊢
  generalize u.shape = q at hshape ⊢
  cases r with
  | unknown =>
    rw [ha.dtype]
    refine follows_unranked fun ws hws => ?_
    cases q with
    | unknown => exact ⟨_, (Outcome.ok.inj hws).symm, rfl⟩
    | ranked cs =>
      obtain ⟨dim, -, hws⟩ := Outcome.bind_eq_ok.mp hws
      exact ⟨_, (Outcome.ok.inj hws).symm, rfl⟩
  | ranked ds =>
    obtain ⟨cs, rfl, hd⟩ := hshape
    dsimp only
    rw [hd.length_eq]
    refine Outcome.follows_bind_same fun dim _ => ?_
    refine follows_single (fits_ofShape ha.dtype (SymShape.ranked_covers_ranked.mpr ?_))
    exact Related.append (List.forall₂_take dim hd) (.cons hde (List.forall₂_drop dim hd))

end OneHot

/-- What inference knows of the positions of elements that are not zero fits their number. -/
theorem NonZero.infer_follows {inputs : ValueInputs}
    (h : Fit names whole sym (inputs.map (Option.map Value.toShapeOnly))) :
    Outcome.Follows (List.Forall₂ fun t ty => Fits names t (ValueType.describe ty))
      (NonZero.infer sym) (NonZero.outputTypes inputs) := by
  refine (h.demandShapeOnly 0).bind fun x v hx => Outcome.follows_ok (.cons ?_ .nil)
  refine ofShape_fits rfl (SymShape.ranked_covers_ranked.mpr ?_)
  refine .cons ?_ (.cons (SymDim.covers_unknown _) .nil)
  have hs := hx.shape
  rw [SymTensor.rank?]
  cases hr : x.shape.rank? with
  | none => exact SymDim.covers_unknown _
  | some n =>
    have hn := hs.rank? n hr
    rw [Value.shape_toShapeOnly, SymShape.ofShape, SymShape.rank?_ranked, List.length_map,
      Option.some.injEq] at hn
    rw [← hn]
    exact SymDim.covers_ofSize _

namespace Compress

/-- What inference knows of the selected slices fits their number. -/
theorem infer_follows (op : Compress) {inputs : ValueInputs}
    (h : Fit names whole sym (inputs.map (Option.map Value.toShapeOnly))) :
    Outcome.Follows (List.Forall₂ fun t ty => Fits names t (ValueType.describe ty))
      (op.infer sym) (op.outputTypes inputs) := by
  refine (h.demandShapeOnly 0).bind fun x v hx => (h.demandShapeOnly 1).bind fun t c ht => ?_
  refine Outcome.follows_bind_right fun condition hcast => ?_
  refine Outcome.follows_bind_right fun _ hrank => ?_
  obtain rfl := Value.eq_int_of_cast (Outcome.mapError_eq_ok.mp hcast)
  have hint : t.dtype = .int := ht.dtype
  rw [Outcome.refuseIf_eq_ok, not_not] at hrank
  have hvector : (SymShape.ofShape condition.shape).declareRank 1 =
      .ok (.ofShape condition.shape) := by
    rw [SymShape.ofShape, SymShape.declareRank, List.length_map]
    exact if_pos hrank
  refine Outcome.follows_bind_left (by simp [Indexing.demandInts, hint, Outcome.refuseIf])
    fun _ _ => ?_
  refine Outcome.follows_bind_left ((ht.shape.declareRank 1).not_error hvector) fun _ _ => ?_
  have hshape := hx.shape
  rw [hx.dtype, Value.dtype_toShapeOnly]
  rw [Value.shape_toShapeOnly] at hshape
  generalize x.shape = s at hshape ⊢
  refine Outcome.follows_bind_right fun dim hdim => ?_
  refine Outcome.follows_bind_right fun _ _ => ?_
  unfold dim? at hdim
  cases haxis : op.axis with
  | none =>
    rw [haxis] at hdim
    cases hdim
    refine Outcome.follows_ok (.cons (ofShape_fits rfl ?_) .nil)
    exact SymShape.ranked_covers_ranked.mpr (.cons (SymDim.covers_unknown _) .nil)
  | some axis =>
    rw [haxis] at hdim
    obtain ⟨k, hk, hdim⟩ := Outcome.bind_eq_ok.mp hdim
    cases hdim
    cases s with
    | unknown => exact Outcome.follows_ok (.cons (fits_unranked rfl) .nil)
    | ranked ds =>
      obtain ⟨cs, hcs, hd⟩ := hshape
      rw [SymShape.ofShape, SymShape.ranked.injEq] at hcs
      subst hcs
      have hresolve : Axis.resolve ds.length axis = .ok k := by
        rw [hd.length_eq, List.length_map]
        exact Outcome.mapError_eq_ok.mp hk
      simp only [hresolve, Outcome.ok_bind]
      refine Outcome.follows_ok (.cons (ofShape_fits rfl ?_) .nil)
      rw [ValueType.shape_describe, Option.elim_some, SymShape.ofShape, List.map_set]
      exact SymShape.ranked_covers_ranked.mpr (Related.set hd (SymDim.covers_unknown _) k)

end Compress

end TensorGraph
