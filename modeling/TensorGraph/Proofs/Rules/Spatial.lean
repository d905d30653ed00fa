import TensorGraph.Proofs.Covering.Inputs
import TensorGraph.Spatial.Convolution
import TensorGraph.Spatial.Pooling

/-! The shape rules of operators that move windows over images. -/

namespace TensorGraph

open SymTensor SymInputs

variable {names : Names} {whole : List Nat} {sym conc : SymInputs}

namespace Window

variable {ε : Type}

theorem ofOption_eq_size {o : Option Int64} {n : Int64} :
    SymDim.ofOption o = .size n ↔ o = some n := by
  cases o <;> simp [SymDim.ofOption]

theorem eq_size_of_add {d : SymDim} {k n : Int64} (h : d + .size k = .size n) :
    ∃ m, d = .size m ∧ n.toInt = m.toInt + k.toInt := by
  change SymDim.add d (.size k) = .size n at h
  by_cases hk : k = 0
  · subst hk
    refine ⟨n, ?_, by rw [Int64.toInt_zero, Int.add_zero]⟩
    cases d <;> simpa only [SymDim.add, if_true] using h
  · cases d with
    | unknown | param _ => simp [SymDim.add, hk] at h
    | size m =>
      rw [SymDim.add, if_neg hk] at h
      exact ⟨m, rfl, toInt_of_addInt? (ofOption_eq_size.mp h)⟩

theorem eq_size_of_sub {d e : SymDim} {n : Int64} (he : e.isParam = false)
    (h : d - e = .size n) : ∃ m k, d = .size m ∧ e = .size k ∧ n.toInt = m.toInt - k.toInt := by
  change SymDim.sub d e = .size n at h
  cases e with
  | unknown => cases d <;> cases h
  | param _ => cases he
  | size k =>
    by_cases hk : k = 0
    · subst hk
      refine ⟨n, 0, ?_, rfl, by rw [Int64.toInt_zero, Int.sub_zero]⟩
      cases d <;> simpa only [SymDim.sub, if_true] using h
    · cases d with
      | unknown | param _ => simp [SymDim.sub, hk] at h
      | size m =>
        rw [SymDim.sub, if_neg hk] at h
        exact ⟨m, k, rfl, rfl, toInt_of_subInt? (ofOption_eq_size.mp h)⟩

theorem eq_size_of_ceilDiv {d : SymDim} {k n : Int64}
    (h : (d.ceilDiv (.size k) : Outcome ε SymDim) = .ok (.size n)) : ∃ m, d = .size m := by
  by_cases hone : k = 1
  · simp only [SymDim.ceilDiv, hone, if_true, Outcome.ok.injEq] at h
    exact ⟨n, h⟩
  · cases d with
    | size m => exact ⟨m, rfl⟩
    | unknown | param _ => simp [SymDim.ceilDiv, hone] at h

theorem isParam_ofOption (o : Option Int64) : (SymDim.ofOption o).isParam = false := by
  cases o <;> rfl

theorem isParam_sub (k m : Int64) : (SymDim.size k - .size m).isParam = false := by
  change (if m = 0 then .size k else SymDim.ofOption (subInt? k m)).isParam = false
  split_ifs
  · rfl
  · exact isParam_ofOption _

theorem isParam_mul {d e : SymDim} (hd : d.isParam = false) (he : e.isParam = false) :
    (d * e).isParam = false := by
  change (SymDim.mul d e).isParam = false
  unfold SymDim.mul
  split_ifs
  · exact hd
  · exact he
  · rfl
  · cases d <;> cases e <;> first | rfl | exact isParam_ofOption _

theorem isParam_add {d : SymDim} (hd : d.isParam = false) : (d + .size 1).isParam = false := by
  change (SymDim.add d (.size 1)).isParam = false
  cases d with
  | unknown => rfl
  | param _ => cases hd
  | size n => exact isParam_ofOption _

/-- A window of known size does not cover a size that has just a name. -/
theorem isParam_span (k : Int64) (dilation : Nat) : (span (.size k) dilation).isParam = false :=
  isParam_add (isParam_mul (isParam_sub k 1) rfl)

theorem span_covers {d c : SymDim} (h : d.Covers names c) (dilation : Nat) :
    (span d dilation).Covers names (span c dilation) := by
  have hone := @SymDim.covers_size_self names 1
  exact ((h.sub hone).mul (SymDim.covers_ofSize dilation)).add hone

theorem trimSteps_follows {s t d c : SymDim} (hs : s.Covers names t) (hd : d.Covers names c)
    (hknown : ∀ n, s = .size n → ∃ m, d = .size m) (stride : Int64) (start : Nat) :
    Outcome.Follows (SymDim.Covers names) (trimSteps s d stride start : Outcome ε SymDim)
      (trimSteps t c stride start : Outcome ε SymDim) := by
  cases s with
  | unknown | param _ => exact SymDim.follows_unknown _
  | size n =>
    obtain ⟨m, rfl⟩ := hknown n rfl
    rw [SymDim.covers_size] at hs hd
    subst hs hd
    simp only [trimSteps]
    split_ifs with hpos
    · refine Outcome.follows_bind_same fun last _ => Outcome.follows_bind_same fun limit _ => ?_
      split_ifs
      · exact Outcome.follows_bind_same fun _ _ => Outcome.follows_ok rfl
      · exact Outcome.follows_ok rfl
    · exact Outcome.follows_ok rfl

theorem stepCount_follows {d c e f : SymDim} (hd : d.Covers names c) (he : e.Covers names f)
    (stride dilation start stop : Nat) (ceil : Bool) (hsize : ceil = true → ∃ k, e = .size k) :
    Outcome.Follows (SymDim.Covers names)
      (stepCount d e stride dilation start stop ceil : Outcome ε SymDim)
      (stepCount c f stride dilation start stop ceil : Outcome ε SymDim) := by
  refine Outcome.follows_bind_same fun pads _ => ?_
  have hroom := (hd.add (SymDim.covers_ofSize pads)).sub (span_covers he dilation)
  have hstep := @SymDim.covers_ofSize names stride
  cases ceil with
  | false => exact hroom.floorDiv hstep
  | true =>
    obtain ⟨k, rfl⟩ := hsize rfl
    refine (hroom.ceilDiv hstep).bind_ok fun s t hs hok _ => ?_
    refine trimSteps_follows hs hd (fun n hn => ?_) _ _
    obtain ⟨room, hroom⟩ := eq_size_of_ceilDiv (hn ▸ hok)
    obtain ⟨padded, -, hpadded, -, -⟩ := eq_size_of_sub (isParam_span k dilation) hroom
    obtain ⟨m, hm, -⟩ := eq_size_of_add hpadded
    exact ⟨m, hm⟩

theorem outputSize_follows {d c e f : SymDim} (hd : d.Covers names c) (he : e.Covers names f)
    (stride dilation : Nat) (padding : DimPadding) (ceil : Bool)
    (hsize : ceil = true → ∃ k, e = .size k) :
    Outcome.Follows (SymDim.Covers names) (outputSize d e stride dilation padding ceil)
      (outputSize c f stride dilation padding ceil) := by
  have hone := @SymDim.covers_size_self names 1
  have hcount : Outcome.Follows (SymDim.Covers names)
      (placeCount d e stride dilation padding ceil : Outcome RuleError SymDim)
      (placeCount c f stride dilation padding ceil : Outcome RuleError SymDim) := by
    cases padding with
    | same => exact hd.ceilDiv (SymDim.covers_ofSize stride)
    | fixed start stop =>
      refine (stepCount_follows hd he stride dilation start stop ceil hsize).bind fun s t hs => ?_
      exact Outcome.follows_ok (hs.add hone)
  refine hcount.bind fun s t hs => ?_
  exact (Outcome.follows_refuseIf hs.value?.any).bind fun _ _ _ => Outcome.follows_ok hs

end Window

namespace WeightedWindow

theorem demandFloat_follows (h : Fit names whole sym conc) :
    Outcome.Follows (fun _ _ => True) (demandFloat sym) (demandFloat conc) :=
  Outcome.follows_refuseIf (h.given_types rfl)

def DimsCover (names : Names) (a b : Option (List SymDim × List SymDim)) : Prop :=
  ∀ p, a = some p → ∃ q, b = some q ∧ List.Forall₂ (SymDim.Covers names) p.1 q.1 ∧
    List.Forall₂ (SymDim.Covers names) p.2 q.2

theorem dims?_follows {x w u v : SymTensor} (hx : Fits names x u) (hw : Fits names w v) :
    Outcome.Follows (DimsCover names) (dims? x w) (dims? u v) := by
  refine (hx.shape.demandRank 3).bind fun _ _ _ => (hw.shape.demandRank 3).bind fun _ _ _ => ?_
  have hs := hx.shape
  have ht := hw.shape
  generalize x.shape = s at hs ⊢
  generalize u.shape = c at hs ⊢
  generalize w.shape = t at ht ⊢
  generalize v.shape = d at ht ⊢
  have hnone : ∀ y : Outcome RuleError (Option (List SymDim × List SymDim)),
      Outcome.Follows (DimsCover names) (.ok none : Outcome RuleError _) y :=
    fun y b hb => .inr ⟨none, rfl, fun p hp => by cases hp⟩
  cases s with
  | unknown => exact hnone _
  | ranked ds =>
    cases t with
    | unknown => exact hnone _
    | ranked ws =>
      obtain ⟨cs, rfl, hd⟩ := hs
      obtain ⟨vs, rfl, hv⟩ := ht
      simp only [hd.length_eq, hv.length_eq]
      refine Outcome.follows_bind_same fun _ _ => Outcome.follows_ok fun p hp => ?_
      cases hp
      exact ⟨_, rfl, hd, hv⟩

theorem demandBias_follows {b b' : Option SymTensor} (h : Option.Rel (Fits names) b b')
    {d c : SymDim} (hd : d.Covers names c) :
    Outcome.Follows (fun _ _ => True) (demandBias b d) (demandBias b' c) := by
  cases h with
  | none => exact Outcome.follows_ok trivial
  | some h =>
    refine (h.shape.declareRank 1).bind fun s s' hs => ?_
    exact ((hs.dim 0).refine hd).bind fun _ _ _ => Outcome.follows_ok trivial

end WeightedWindow

open WeightedWindow

namespace Conv

theorem spatialSizes_follows (op : Conv) {ds cs ws vs : List SymDim}
    (hd : List.Forall₂ (SymDim.Covers names) ds cs) (hw : List.Forall₂ (SymDim.Covers names) ws vs)
    (strides dilations : List Nat) :
    Outcome.Follows (List.Forall₂ (SymDim.Covers names)) (op.spatialSizes ds ws strides dilations)
      (op.spatialSizes cs vs strides dilations) := by
  rw [spatialSizes, spatialSizes, hd.length_eq]
  refine Outcome.follows_mapM_self _ fun k => Outcome.follows_bind_same fun padding _ => ?_
  exact Window.outputSize_follows (Related.getD hd (SymDim.covers_unknown _) _)
    (Related.getD hw (SymDim.covers_unknown _) _) _ _ _ _ fun h => by cases h

/-- Refuses a number of channels that is known not to fall into the groups. -/
def demandGroups (channels : SymDim) (groups : Int64) : Outcome RuleError Unit :=
  match channels.value? with
  | some n => do .refuseIf ((← remInt n groups) ≠ 0) (.shape .groupedChannels)
  | none => .ok ()

theorem demandGroups_follows {d c : SymDim} (h : d.Covers names c) (groups : Int64) :
    Outcome.Follows (fun _ _ => True) (demandGroups d groups) (demandGroups c groups) := by
  unfold demandGroups
  cases hd : d.value? with
  | none => exact fun _ _ => .inr ⟨(), rfl, trivial⟩
  | some n =>
    rw [h.value? n hd]
    exact (Outcome.follows_refl _).mono fun _ _ _ => trivial

def result (op : Conv) (bias : Option SymTensor) :
    Option (List SymDim × List SymDim) → Outcome RuleError (List SymTensor)
  | none => return [.unranked .float]
  | some (ds, ws) => do
    let rank := ds.length - 2
    let strides ← Window.perDimension op.strides rank .strides
    let dilations ← Window.perDimension op.dilations rank .dilations
    let groups := intOfSize op.groups
    let _ ← (ds.getD 1 .unknown).refine (ws.getD 1 .unknown * .size groups)
    let channels := ws.getD 0 .unknown
    demandGroups channels groups
    demandBias bias channels
    let sizes ← op.spatialSizes ds ws strides dilations
    return [.ofShape .float (.ranked (ds.getD 0 .unknown :: channels :: sizes))]

theorem infer_eq (op : Conv) (inputs : SymInputs) : op.infer inputs = (do
    let x ← inputs.demand 0
    let weight ← inputs.demand 1
    demandFloat inputs
    .refuseIf (op.groups = 0) (.value .zeroGroups)
    op.result (Inputs.find? inputs 2) (← dims? x weight)) := by
  unfold infer
  refine bind_congr fun x => bind_congr fun w => bind_congr fun _ => ?_
  refine bind_congr fun _ => bind_congr fun dims => ?_
  rcases dims with _ | ⟨ds, ws⟩
  · rfl
  · refine bind_congr fun _ => bind_congr fun _ => bind_congr fun _ => ?_
    unfold demandGroups
    dsimp only
    cases (ws.getD 0 .unknown).value? with
    | none => rfl
    | some n => simp only [bind_assoc]

theorem result_follows (op : Conv) {b b' : Option SymTensor} (hb : Option.Rel (Fits names) b b')
    {p q : Option (List SymDim × List SymDim)} (h : DimsCover names p q) :
    Outcome.Follows (List.Forall₂ (Fits names)) (op.result b p) (op.result b' q) := by
  rcases p with _ | ⟨ds, ws⟩
  · refine follows_unranked fun rs hrs => ?_
    rcases q with _ | ⟨cs, vs⟩
    · exact ⟨_, (Outcome.ok.inj hrs).symm, rfl⟩
    · obtain ⟨_, -, hrs⟩ := Outcome.bind_eq_ok.mp hrs
      obtain ⟨_, -, hrs⟩ := Outcome.bind_eq_ok.mp hrs
      obtain ⟨_, -, hrs⟩ := Outcome.bind_eq_ok.mp hrs
      obtain ⟨_, -, hrs⟩ := Outcome.bind_eq_ok.mp hrs
      obtain ⟨_, -, hrs⟩ := Outcome.bind_eq_ok.mp hrs
      obtain ⟨_, -, hrs⟩ := Outcome.bind_eq_ok.mp hrs
      exact ⟨_, (Outcome.ok.inj hrs).symm, rfl⟩
  · obtain ⟨⟨cs, vs⟩, rfl, hd, hw⟩ := h _ rfl
    dsimp only at hd hw
    have hitem := Related.getD hd (@SymDim.covers_unknown names .unknown)
    have hweight := Related.getD hw (@SymDim.covers_unknown names .unknown)
    have hgroups := @SymDim.covers_size_self names (intOfSize op.groups)
    simp only [result, hd.length_eq]
    refine Outcome.follows_bind_same fun strides _ => ?_
    refine Outcome.follows_bind_same fun dilations _ => ?_
    refine ((hitem 1).refine ((hweight 1).mul hgroups)).bind fun _ _ _ => ?_
    refine (demandGroups_follows (hweight 0) _).bind fun _ _ _ => ?_
    refine (demandBias_follows hb (hweight 0)).bind fun _ _ _ => ?_
    refine (op.spatialSizes_follows hd hw strides dilations).bind fun sizes sizes' hsizes => ?_
    refine follows_single (fits_ofShape rfl (SymShape.ranked_covers_ranked.mpr ?_))
    exact .cons (hitem 0) (.cons (hweight 0) hsizes)

theorem infer_follows (op : Conv) (h : Fit names whole sym conc) :
    Outcome.Follows (List.Forall₂ (Fits names)) (op.infer sym) (op.infer conc) := by
  rw [infer_eq, infer_eq]
  refine (h.demand 0).bind fun x u hx => (h.demand 1).bind fun w v hw => ?_
  refine (demandFloat_follows h).bind fun _ _ _ => Outcome.follows_bind_same fun _ _ => ?_
  exact (dims?_follows hx hw).bind fun p q hpq => op.result_follows (h.find? 2) hpq

end Conv

namespace ConvTranspose

theorem spatialSize_follows {d c e f : SymDim} (hd : d.Covers names c) (he : e.Covers names f)
    (stride dilation extra : Nat) (padding : DimPadding) :
    Outcome.Follows (SymDim.Covers names) (spatialSize d e stride dilation extra padding)
      (spatialSize c f stride dilation extra padding) := by
  have hone := @SymDim.covers_size_self names 1
  have hstride := @SymDim.covers_ofSize names stride
  have hspread : Outcome.Follows (SymDim.Covers names)
      (spreadSize d e stride dilation extra padding)
      (spreadSize c f stride dilation extra padding) := by
    cases padding with
    | same => exact Outcome.follows_ok (hd.mul hstride)
    | fixed start stop =>
      refine Outcome.follows_bind_same fun pads _ => Outcome.follows_ok ?_
      have hmoved := ((hd.sub hone).mul hstride).add (Window.span_covers he dilation)
      exact (hmoved.add (SymDim.covers_ofSize extra)).sub (SymDim.covers_ofSize pads)
  refine hspread.bind fun s t hs => ?_
  exact (Outcome.follows_refuseIf hs.value?.any).bind fun _ _ _ => Outcome.follows_ok hs

theorem spatialSizes_follows (op : ConvTranspose) {ds cs ws vs : List SymDim}
    (hd : List.Forall₂ (SymDim.Covers names) ds cs) (hw : List.Forall₂ (SymDim.Covers names) ws vs)
    (strides dilations extra : List Nat) :
    Outcome.Follows (List.Forall₂ (SymDim.Covers names))
      (op.spatialSizes ds ws strides dilations extra)
      (op.spatialSizes cs vs strides dilations extra) := by
  rw [spatialSizes, spatialSizes, hd.length_eq]
  refine Outcome.follows_mapM_self _ fun k => Outcome.follows_bind_same fun padding _ => ?_
  exact spatialSize_follows (Related.getD hd (SymDim.covers_unknown _) _)
    (Related.getD hw (SymDim.covers_unknown _) _) _ _ _ _

def result (op : ConvTranspose) (bias : Option SymTensor) :
    Option (List SymDim × List SymDim) → Outcome RuleError (List SymTensor)
  | none => return [.unranked .float]
  | some (ds, ws) => do
    let rank := ds.length - 2
    let strides ← Window.perDimension op.strides rank .strides
    let dilations ← Window.perDimension op.dilations rank .dilations
    let extra ← op.extraSizes rank
    let _ ← (ds.getD 1 .unknown).refine (ws.getD 0 .unknown)
    let channels := ws.getD 1 .unknown * .ofSize op.groups
    demandBias bias channels
    let sizes ← op.spatialSizes ds ws strides dilations extra
    return [.ofShape .float (.ranked (ds.getD 0 .unknown :: channels :: sizes))]

theorem infer_eq (op : ConvTranspose) (inputs : SymInputs) : op.infer inputs = (do
    let x ← inputs.demand 0
    let weight ← inputs.demand 1
    demandFloat inputs
    .refuseIf (op.groups = 0) (.value .zeroGroups)
    op.result (Inputs.find? inputs 2) (← dims? x weight)) := by
  unfold infer
  refine bind_congr fun x => bind_congr fun w => bind_congr fun _ => ?_
  refine bind_congr fun _ => bind_congr fun dims => ?_
  rcases dims with _ | ⟨ds, ws⟩ <;> rfl

theorem result_follows (op : ConvTranspose) {b b' : Option SymTensor}
    (hb : Option.Rel (Fits names) b b') {p q : Option (List SymDim × List SymDim)}
    (h : DimsCover names p q) :
    Outcome.Follows (List.Forall₂ (Fits names)) (op.result b p) (op.result b' q) := by
  rcases p with _ | ⟨ds, ws⟩
  · refine follows_unranked fun rs hrs => ?_
    rcases q with _ | ⟨cs, vs⟩
    · exact ⟨_, (Outcome.ok.inj hrs).symm, rfl⟩
    · obtain ⟨_, -, hrs⟩ := Outcome.bind_eq_ok.mp hrs
      obtain ⟨_, -, hrs⟩ := Outcome.bind_eq_ok.mp hrs
      obtain ⟨_, -, hrs⟩ := Outcome.bind_eq_ok.mp hrs
      obtain ⟨_, -, hrs⟩ := Outcome.bind_eq_ok.mp hrs
      obtain ⟨_, -, hrs⟩ := Outcome.bind_eq_ok.mp hrs
      obtain ⟨_, -, hrs⟩ := Outcome.bind_eq_ok.mp hrs
      exact ⟨_, (Outcome.ok.inj hrs).symm, rfl⟩
  · obtain ⟨⟨cs, vs⟩, rfl, hd, hw⟩ := h _ rfl
    dsimp only at hd hw
    have hitem := Related.getD hd (@SymDim.covers_unknown names .unknown)
    have hweight := Related.getD hw (@SymDim.covers_unknown names .unknown)
    have hchannels := (hweight 1).mul (@SymDim.covers_ofSize names op.groups)
    simp only [result, hd.length_eq]
    refine Outcome.follows_bind_same fun strides _ => ?_
    refine Outcome.follows_bind_same fun dilations _ => ?_
    refine Outcome.follows_bind_same fun extra _ => ?_
    refine ((hitem 1).refine (hweight 0)).bind fun _ _ _ => ?_
    refine (demandBias_follows hb hchannels).bind fun _ _ _ => ?_
    refine (op.spatialSizes_follows hd hw strides dilations extra).bind fun s s' hs => ?_
    refine follows_single (fits_ofShape rfl (SymShape.ranked_covers_ranked.mpr ?_))
    exact .cons (hitem 0) (.cons hchannels hs)

theorem infer_follows (op : ConvTranspose) (h : Fit names whole sym conc) :
    Outcome.Follows (List.Forall₂ (Fits names)) (op.infer sym) (op.infer conc) := by
  rw [infer_eq, infer_eq]
  refine (h.demand 0).bind fun x u hx => (h.demand 1).bind fun w v hw => ?_
  refine (demandFloat_follows h).bind fun _ _ _ => Outcome.follows_bind_same fun _ _ => ?_
  exact (dims?_follows hx hw).bind fun p q hpq => op.result_follows (h.find? 2) hpq

end ConvTranspose

namespace Pool

theorem dims?_follows {x u : SymTensor} (hx : Fits names x u) :
    Outcome.Follows (fun a b => ∀ ds, a = some ds →
      ∃ cs, b = some cs ∧ List.Forall₂ (SymDim.Covers names) ds cs) (dims? x) (dims? u) := by
  rw [dims?, dims?, hx.dtype]
  refine Outcome.follows_bind_same fun _ _ => (hx.shape.demandRank 3).bind fun _ _ _ => ?_
  refine Outcome.follows_ok fun ds hds => ?_
  have hs := hx.shape
  cases hr : x.shape with
  | unknown => simp [hr, SymShape.dims?] at hds
  | ranked es =>
    obtain ⟨cs, hc, hd⟩ := hr ▸ hs
    rw [hr, SymShape.dims?, Option.some.injEq] at hds
    exact ⟨cs, by rw [hc, SymShape.dims?], hds ▸ hd⟩

theorem spatialSizes_follows (op : Pool) {ds cs : List SymDim}
    (hd : List.Forall₂ (SymDim.Covers names) ds cs) (strides : List Nat) :
    Outcome.Follows (List.Forall₂ (SymDim.Covers names)) (op.spatialSizes ds strides)
      (op.spatialSizes cs strides) := by
  rw [spatialSizes, spatialSizes, hd.length_eq]
  refine Outcome.follows_mapM_self _ fun k => Outcome.follows_bind_same fun padding _ => ?_
  exact Window.outputSize_follows (Related.getD hd (SymDim.covers_unknown _) _)
    (SymDim.covers_ofSize _) _ _ _ _ fun _ => ⟨_, rfl⟩

theorem infer_follows (op : Pool) (h : Fit names whole sym conc) :
    Outcome.Follows (List.Forall₂ (Fits names)) (op.infer sym) (op.infer conc) := by
  refine (h.demand 0).bind fun x u hx => (dims?_follows hx).bind fun p q hpq => ?_
  cases p with
  | none =>
    refine follows_unranked fun ws hws => ?_
    cases q with
    | none => exact ⟨_, (Outcome.ok.inj hws).symm, rfl⟩
    | some cs =>
      obtain ⟨_, -, hws⟩ := Outcome.bind_eq_ok.mp hws
      obtain ⟨_, -, hws⟩ := Outcome.bind_eq_ok.mp hws
      obtain ⟨_, -, hws⟩ := Outcome.bind_eq_ok.mp hws
      exact ⟨_, (Outcome.ok.inj hws).symm, rfl⟩
  | some ds =>
    obtain ⟨cs, rfl, hd⟩ := hpq ds rfl
    simp only [hd.length_eq]
    refine Outcome.follows_bind_same fun _ _ => Outcome.follows_bind_same fun strides _ => ?_
    refine (op.spatialSizes_follows hd strides).bind fun s s' hs => ?_
    refine follows_single (fits_ofShape rfl (SymShape.ranked_covers_ranked.mpr ?_))
    exact Related.append (List.forall₂_take 2 hd) hs

end Pool

theorem GlobalPool.infer_follows (h : Fit names whole sym conc) :
    Outcome.Follows (List.Forall₂ (Fits names)) (GlobalPool.infer sym) (GlobalPool.infer conc) := by
  refine (h.demand 0).bind fun x u hx => (Pool.dims?_follows hx).bind fun p q hpq => ?_
  cases p with
  | none =>
    refine follows_unranked fun ws hws => ?_
    cases q <;> exact ⟨_, (Outcome.ok.inj hws).symm, rfl⟩
  | some ds =>
    obtain ⟨cs, rfl, hd⟩ := hpq ds rfl
    refine follows_single (fits_ofShape rfl (SymShape.ranked_covers_ranked.mpr ?_))
    rw [hd.length_eq]
    exact Related.append (List.forall₂_take 2 hd) (Related.replicate (SymDim.covers_size_self 1) _)

end TensorGraph
