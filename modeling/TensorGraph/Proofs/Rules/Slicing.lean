import TensorGraph.Proofs.Rules.Joining
import TensorGraph.Rearrange.Padding
import TensorGraph.Rearrange.Slicing

/-! The shape rules of operators that select ranges of positions or add elements at the ends of
dimensions. Their parameters are lists of integers of which inference may know some. -/

namespace TensorGraph

open SymTensor SymInputs

variable {names : Names} {whole : List Nat} {sym conc : SymInputs}

/-- Whether lists of integers, where they are known, agree entry by entry with the actual ones. -/
def ListTold (o o' : Option (List (Option Int64))) : Prop :=
  ∀ l, o = some l → ∃ l', o' = some l' ∧ List.Forall₂ Told l l'

theorem SymTensor.FitsWhole.listTold {t u : SymTensor} (h : FitsWhole names t u) :
    ListTold (t.elements.map (·.map (·.int?))) (u.elements.map (·.map (·.int?))) := by
  intro l hl
  obtain ⟨es, he, rfl⟩ := Option.map_eq_some_iff.mp hl
  obtain ⟨cs, hc, hcs⟩ := h.elements he
  refine ⟨cs.map (·.int?), by simp [hc], Related.map hcs fun _ _ hec => hec.int?⟩

namespace Slice

theorem parameter_follows {t u : SymTensor} (h : FitsWhole names t u) :
    Outcome.Follows ListTold (parameter t) (parameter u) := by
  rw [parameter, parameter, h.1.dtype]
  refine Outcome.follows_bind_same fun _ _ => ?_
  exact (h.1.shape.declareRank 1).bind fun _ _ _ => Outcome.follows_ok h.listTold

theorem optionalParameter_follows {t u : Option SymTensor}
    (h : Option.Rel (FitsWhole names) t u) :
    Outcome.Follows (Option.Rel ListTold) (optionalParameter t) (optionalParameter u) := by
  cases h with
  | none => exact Outcome.follows_ok .none
  | some h => exact (parameter_follows h).bind fun _ _ hl => Outcome.follows_ok (.some hl)

theorem mapM_id_of_told {l l' : List (Option Int64)} (h : List.Forall₂ Told l l') :
    Told (l.mapM id) (l'.mapM id) := by
  intro ns hns
  rw [Option.mapM_eq_some] at hns ⊢
  exact Related.trans h.flip hns fun a b n (hab : Told b a) hb => hab n hb

theorem slicedDims_follows (rank count : Nat) {axes axes' : Option (Option (List (Option Int64)))}
    (h : Option.Rel ListTold axes axes') :
    Outcome.Follows Told (slicedDims rank count axes) (slicedDims rank count axes') := by
  have hnone : ∀ y : Outcome RuleError (Option (List Nat)),
      Outcome.Follows Told (.ok none : Outcome RuleError (Option (List Nat))) y :=
    fun y b hb => .inr ⟨none, rfl, fun x hx => by cases hx⟩
  have hsame : ∀ x : Outcome RuleError (Option (List Nat)), Outcome.Follows Told x x :=
    fun x => (Outcome.follows_refl x).mono fun a b hab => hab ▸ fun _ => id
  cases h with
  | none => exact hsame _
  | @some o o' h =>
    cases o with
    | none => exact hnone _
    | some l =>
      obtain ⟨l', rfl, hl⟩ := h l rfl
      cases hns : l.mapM id with
      | none => simpa only [slicedDims, hns] using hnone _
      | some ns =>
        simp only [slicedDims, hns, mapM_id_of_told hl ns hns]
        exact hsame _

theorem slicedSteps_follows (count : Nat) {steps steps' : Option (Option (List (Option Int64)))}
    (h : Option.Rel ListTold steps steps') :
    Outcome.Follows (List.Forall₂ Told) (slicedSteps count steps) (slicedSteps count steps') := by
  cases h with
  | none =>
    exact Outcome.follows_ok (Related.replicate (fun _ => id) count)
  | @some o o' h =>
    cases o with
    | none =>
      intro l' hl'
      have hlen : l'.length = count := by
        cases o' with
        | none =>
          cases hl'
          exact List.length_replicate
        | some l =>
          simp only [slicedSteps] at hl'
          split_ifs at hl' with hcount
          cases hl'
          exact hcount
      refine .inr ⟨_, rfl, ?_⟩
      rw [← hlen]
      exact Related.replicate_left fun b _ x hx => by cases hx
    | some l =>
      obtain ⟨l', rfl, hl⟩ := h l rfl
      simp only [slicedSteps, hl.length_eq]
      split_ifs
      · exact Outcome.follows_ok hl
      · exact Outcome.follows_error _ _

/-- Whether a cut is along the same dimension as another one and agrees with it where it is
known. -/
structure CutTold (c c' : Cut) : Prop where
  dim : c.dim = c'.dim
  start : Told c.start c'.start
  stop : Told c.stop c'.stop
  step : Told c.step c'.step

theorem zipCuts_told (dims : List Nat) {starts stops steps starts' stops' steps' :
    List (Option Int64)} (hstarts : List.Forall₂ Told starts starts')
    (hstops : List.Forall₂ Told stops stops') (hsteps : List.Forall₂ Told steps steps') :
    List.Forall₂ CutTold (zipCuts dims starts stops steps)
      (zipCuts dims starts' stops' steps') := by
  have hzip := Related.zip (R := (· = ·)) (List.forall₂_refl dims)
    (Related.zip hstarts (Related.zip hstops hsteps))
  exact Related.map hzip fun a b hab => ⟨hab.1, hab.2.1, hab.2.2.1, hab.2.2.2⟩

theorem cutDims_follows {ds cs : List SymDim} (hd : List.Forall₂ (SymDim.Covers names) ds cs)
    {cuts cuts' : List Cut} (h : List.Forall₂ CutTold cuts cuts') :
    Outcome.Follows (List.Forall₂ (SymDim.Covers names)) (cutDims ds cuts) (cutDims cs cuts') := by
  refine Outcome.follows_foldlM h (fun out out' c c' hout hc => ?_) hd
  rw [hc.dim]
  have hdim := Related.getD hd (SymDim.covers_unknown .unknown) c'.dim
  refine (hdim.slice hc.start hc.stop hc.step).bind fun e e' he => ?_
  exact Outcome.follows_ok (Related.set hout he c'.dim)

theorem mem_zipCuts {dims : List Nat} {starts stops steps : List (Option Int64)} {c : Cut}
    (hc : c ∈ zipCuts dims starts stops steps) : c.dim ∈ dims := by
  obtain ⟨⟨dim, rest⟩, hmem, rfl⟩ := List.mem_map.mp hc
  exact (List.of_mem_zip hmem).1

theorem step_of_mem_zipCuts {dims : List Nat} {starts stops steps : List (Option Int64)} {c : Cut}
    (hc : c ∈ zipCuts dims starts stops steps) : c.step ∈ steps := by
  obtain ⟨⟨dim, start, stop, step⟩, hmem, rfl⟩ := List.mem_map.mp hc
  exact (List.of_mem_zip (List.of_mem_zip (List.of_mem_zip hmem).2).2).2

theorem cutRange_ne_error {d e : SymDim} {c : Cut} (h : d.slice c.start c.stop c.step = .ok e)
    (cause : RuleError) : cutRange d c ≠ .error cause := by
  obtain ⟨_, -, h⟩ := Outcome.bind_eq_ok.mp h
  unfold cutRange
  cases hd : d.value? <;> cases hstart : c.start <;> cases hstop : c.stop <;>
    cases hstep : c.step <;> simp only [ne_eq, reduceCtorEq, not_false_iff]
  rw [hd, hstart, hstop, hstep] at h
  obtain ⟨r, hr, -⟩ := Outcome.bind_eq_ok.mp h
  simp [hr]

theorem position_ne_error {ε : Type} (r : SliceRange) (i : Nat) (e : ε) :
    r.position i ≠ .error e :=
  Outcome.bind_ne_error (checkInt_ne_error _ _) fun _ _ =>
    Outcome.bind_ne_error (checkInt_ne_error _ _) fun _ _ => by simp

theorem cutElements_ne_error {x output : SymTensor} {ds es : List SymDim} {cuts : List Cut}
    (hcuts : ∀ c ∈ cuts, c.dim < ds.length) (h : cutDims ds cuts = .ok es) (e : RuleError) :
    cutElements x ds cuts output ≠ .error e := by
  have hread : ∀ r : SliceRange, (do
      let positions ← (List.range r.len).mapM r.position
      return output.setLeading (positions.map x.get) : Outcome RuleError SymTensor) ≠ .error e :=
    fun r => Outcome.bind_ne_error (Outcome.mapM_ne_error fun i _ => position_ne_error r i e)
      fun _ _ => by simp
  cases hx : x.elements with
  | none => cases ds <;> simp [cutElements, hx]
  | some elements =>
    match ds, hcuts, h with
    | [], _, _ | _ :: _ :: _, _, _ => simp [cutElements]
    | [d], hcuts, h =>
      cases hlast : cuts.getLast? with
      | none =>
        simp only [cutElements, hx, hlast, Outcome.ok_bind]
        exact hread _
      | some c =>
        have hmem := List.mem_of_getLast? hlast
        obtain ⟨out, out', hstep⟩ := Outcome.step_of_foldlM h hmem
        obtain ⟨e', he', -⟩ := Outcome.bind_eq_ok.mp hstep
        have hdim : c.dim = 0 := by simpa using hcuts c hmem
        rw [hdim, List.getD_cons_zero] at he'
        simp only [cutElements, hx, hlast]
        refine Outcome.bind_ne_error (cutRange_ne_error he' e) fun range _ => ?_
        cases range with
        | none => simp
        | some r => exact hread r

theorem cutElements_ok {x output w : SymTensor} {ds : List SymDim} {cuts : List Cut}
    (h : cutElements x ds cuts output = .ok w) : ∃ es, w = output ∨ w = output.setLeading es := by
  unfold cutElements at h
  split at h
  · cases hlast : cuts.getLast? with
    | none =>
      simp only [hlast, Outcome.ok_bind] at h
      obtain ⟨positions, -, h⟩ := Outcome.bind_eq_ok.mp h
      exact ⟨_, .inr (Outcome.ok.inj h).symm⟩
    | some c =>
      simp only [hlast] at h
      obtain ⟨range, -, h⟩ := Outcome.bind_eq_ok.mp h
      cases range with
      | none => exact ⟨[], .inl (Outcome.ok.inj h).symm⟩
      | some r =>
        obtain ⟨positions, -, h⟩ := Outcome.bind_eq_ok.mp h
        exact ⟨_, .inr (Outcome.ok.inj h).symm⟩
  · exact ⟨[], .inl (Outcome.ok.inj h).symm⟩

theorem length_cutDims {ds es : List SymDim} {cuts : List Cut} (h : cutDims ds cuts = .ok es) :
    es.length = ds.length := by
  unfold cutDims at h
  have hfold : ∀ out : List SymDim, cuts.foldlM (fun out c => do
      return out.set c.dim (← (ds.getD c.dim .unknown).slice c.start c.stop c.step)) out =
        (.ok es : Outcome RuleError (List SymDim)) → es.length = out.length := by
    clear h
    induction cuts with
    | nil =>
      intro out h
      rw [← Outcome.ok.inj h]
    | cons c cuts ih =>
      intro out h
      rw [List.foldlM_cons] at h
      obtain ⟨out', hout, h⟩ := Outcome.bind_eq_ok.mp h
      obtain ⟨d, -, hset⟩ := Outcome.bind_eq_ok.mp hout
      rw [ih out' h, ← Outcome.ok.inj hset, List.length_set]
  exact hfold ds h

def cutAlong (x : SymTensor) (ds : List SymDim) (starts stops : List (Option Int64))
    (steps : Option (Option (List (Option Int64)))) :
    Option (List Nat) → Outcome RuleError (List SymTensor)
  | none => return [.ofShape x.dtype (.ofRank ds.length)]
  | some dims => do
    .refuseIf (dims.any (· ≥ ds.length)) (.rank .sliceAxis)
    let steps ← slicedSteps starts.length steps
    let cuts := zipCuts dims starts stops steps
    let output := SymTensor.ofShape x.dtype (.ranked (← cutDims ds cuts))
    return [← cutElements x ds cuts output]

theorem cutAlong_ok {x : SymTensor} {ds : List SymDim} {starts stops : List (Option Int64)}
    {steps : Option (Option (List (Option Int64)))} {dims : Option (List Nat)}
    {ws : List SymTensor} (h : cutAlong x ds starts stops steps dims = .ok ws) :
    ∃ w es, ws = [w] ∧ w.dtype = x.dtype ∧ w.shape = .ranked es ∧ es.length = ds.length := by
  cases dims with
  | none => exact ⟨_, _, (Outcome.ok.inj h).symm, rfl, rfl, List.length_replicate⟩
  | some dims =>
    obtain ⟨_, -, h⟩ := Outcome.bind_eq_ok.mp h
    obtain ⟨steps, -, h⟩ := Outcome.bind_eq_ok.mp h
    obtain ⟨es, hes, h⟩ := Outcome.bind_eq_ok.mp h
    obtain ⟨w, hw, h⟩ := Outcome.bind_eq_ok.mp h
    refine ⟨w, es, (Outcome.ok.inj h).symm, ?_⟩
    obtain ⟨read, rfl | rfl⟩ := cutElements_ok hw <;> exact ⟨rfl, rfl, length_cutDims hes⟩

theorem cutAlong_follows {x u : SymTensor} (hx : Fits names x u) {ds cs : List SymDim}
    (hd : List.Forall₂ (SymDim.Covers names) ds cs)
    {starts starts' stops stops' : List (Option Int64)}
    (hstarts : List.Forall₂ Told starts starts') (hstops : List.Forall₂ Told stops stops')
    {steps steps' : Option (Option (List (Option Int64)))}
    (hsteps : Option.Rel ListTold steps steps') {dims dims' : Option (List Nat)}
    (hdims : Told dims dims') :
    Outcome.Follows (List.Forall₂ (Fits names)) (cutAlong x ds starts stops steps dims)
      (cutAlong u cs starts' stops' steps' dims') := by
  cases dims with
  | none =>
    intro ws hws
    obtain ⟨w, es, rfl, hdtype, hshape, hlen⟩ := cutAlong_ok hws
    refine .inr ⟨_, rfl, .cons (ofShape_fits (hx.dtype.trans hdtype.symm) ?_) .nil⟩
    rw [hshape, hd.length_eq, ← hlen]
    exact SymShape.ofRank_covers es
  | some dims =>
    rw [hdims dims rfl, cutAlong, cutAlong, hd.length_eq, hstarts.length_eq]
    refine Outcome.follows_bind_same fun _ hrange => ?_
    refine (slicedSteps_follows starts'.length hsteps).bind fun s s' hs => ?_
    refine (cutDims_follows hd (zipCuts_told dims hstarts hstops hs)).bind_ok
      fun es es' hes hsym _ => ?_
    have hlt : ∀ c ∈ zipCuts dims starts stops s, c.dim < ds.length := by
      intro c hc
      rw [Outcome.refuseIf_eq_ok, List.any_eq_true] at hrange
      have := mt (fun h => ⟨c.dim, mem_zipCuts hc, h⟩) hrange
      rw [hd.length_eq]
      simpa using this
    refine Outcome.follows_bind_left (cutElements_ne_error hlt hsym) fun w hw => ?_
    refine Outcome.follows_bind_right fun w' hw' => follows_single ?_
    have hout : Fits names (.ofShape x.dtype (.ranked es)) (.ofShape u.dtype (.ranked es')) :=
      fits_ofShape hx.dtype (SymShape.ranked_covers_ranked.mpr hes)
    have hleft : Fits names w (.ofShape u.dtype (.ranked es')) := by
      obtain ⟨read, rfl | rfl⟩ := cutElements_ok hw
      · exact hout
      · exact hout.setLeading read
    obtain ⟨read, rfl | rfl⟩ := cutElements_ok hw'
    · exact hleft
    · exact hleft.congr_right rfl rfl

def result (x : SymTensor) (starts stops : Option (List (Option Int64)))
    (axes steps : Option (Option (List (Option Int64)))) : Outcome RuleError (List SymTensor) :=
  match x.shape, starts, stops with
  | .unknown, _, _ => return [.unranked x.dtype]
  | .ranked ds, some starts, some stops => do
    .refuseIf (starts.length ≠ stops.length) (.value .startsAndEnds)
    cutAlong x ds starts stops steps (← slicedDims ds.length starts.length axes)
  | .ranked ds, _, _ => return [.ofShape x.dtype (.ofRank ds.length)]

theorem infer_eq (inputs : SymInputs) : infer inputs = (do
    let x ← inputs.demand 0
    let starts ← parameter (← inputs.demand 1)
    let stops ← parameter (← inputs.demand 2)
    let axes ← optionalParameter (Inputs.find? inputs 3)
    let steps ← optionalParameter (Inputs.find? inputs 4)
    result x starts stops axes steps) := by
  unfold infer
  refine bind_congr fun x => bind_congr fun s => bind_congr fun starts => ?_
  refine bind_congr fun e => bind_congr fun stops => ?_
  refine bind_congr fun axes => bind_congr fun steps => ?_
  unfold result
  cases x.shape with
  | unknown => rfl
  | ranked ds =>
    cases starts with
    | none => rfl
    | some starts =>
      cases stops with
      | none => rfl
      | some stops =>
        refine bind_congr fun _ => bind_congr fun dims => ?_
        cases dims <;> rfl

theorem result_ok {x : SymTensor} {starts stops : Option (List (Option Int64))}
    {axes steps : Option (Option (List (Option Int64)))} {ws : List SymTensor}
    (h : result x starts stops axes steps = .ok ws) :
    ∃ w, ws = [w] ∧ w.dtype = x.dtype ∧ w.rank? = x.rank? := by
  unfold result at h
  generalize hs : x.shape = s at h
  cases s with
  | unknown => exact ⟨_, (Outcome.ok.inj h).symm, rfl, by rw [rank?, rank?, hs]; rfl⟩
  | ranked ds =>
    have hofRank : (SymTensor.ofShape x.dtype (.ofRank ds.length)).rank? = x.rank? := by
      simp [rank?, hs, SymShape.rank?, SymShape.dims?, SymShape.ofRank]
    cases starts with
    | none => exact ⟨_, (Outcome.ok.inj h).symm, rfl, hofRank⟩
    | some starts =>
      cases stops with
      | none => exact ⟨_, (Outcome.ok.inj h).symm, rfl, hofRank⟩
      | some stops =>
        obtain ⟨_, -, h⟩ := Outcome.bind_eq_ok.mp h
        obtain ⟨dims, -, h⟩ := Outcome.bind_eq_ok.mp h
        obtain ⟨w, es, rfl, hdtype, hshape, hlen⟩ := cutAlong_ok h
        exact ⟨w, rfl, hdtype, by simp [rank?, hs, hshape, SymShape.rank?, SymShape.dims?, hlen]⟩

theorem result_follows {x u : SymTensor} (hx : Fits names x u)
    {starts starts' stops stops' : Option (List (Option Int64))} (hstarts : ListTold starts starts')
    (hstops : ListTold stops stops')
    {axes axes' steps steps' : Option (Option (List (Option Int64)))}
    (haxes : Option.Rel ListTold axes axes') (hsteps : Option.Rel ListTold steps steps') :
    Outcome.Follows (List.Forall₂ (Fits names)) (result x starts stops axes steps)
      (result u starts' stops' axes' steps') := by
  have hrank : ∀ ds, x.shape = .ranked ds → Outcome.Follows (List.Forall₂ (Fits names))
      (.ok [.ofShape x.dtype (.ofRank ds.length)] : Outcome RuleError (List SymTensor))
      (result u starts' stops' axes' steps') := by
    intro ds hds ws hws
    obtain ⟨w, rfl, hdtype, hw⟩ := result_ok hws
    refine .inr ⟨_, rfl, .cons (ofShape_fits (hx.dtype.trans hdtype.symm) ?_) .nil⟩
    refine SymShape.ofRank_covers_of_rank? ?_
    exact hw.trans (hx.shape.rank? _ (by simp [hds, SymShape.rank?, SymShape.dims?]))
  cases hs : x.shape with
  | unknown =>
    simp only [result, hs]
    refine follows_unranked fun ws hws => ?_
    obtain ⟨w, rfl, hdtype, -⟩ := result_ok hws
    exact ⟨w, rfl, hdtype.trans hx.dtype.symm⟩
  | ranked ds =>
    cases starts with
    | none =>
      simp only [result, hs]
      exact hrank ds hs
    | some starts =>
      cases stops with
      | none =>
        simp only [result, hs]
        exact hrank ds hs
      | some stops =>
        obtain ⟨starts', rfl, hl⟩ := hstarts starts rfl
        obtain ⟨stops', rfl, hr⟩ := hstops stops rfl
        obtain ⟨cs, hc, hd⟩ := hs ▸ hx.shape
        simp only [result, hs, hc]
        refine (Outcome.follows_refuseIf fun hne => ?_).bind fun _ _ _ => ?_
        · rwa [← hl.length_eq, ← hr.length_eq]
        rw [hd.length_eq, hl.length_eq]
        exact (slicedDims_follows cs.length starts'.length haxes).bind fun dims dims' hdims =>
          cutAlong_follows hx hd hl hr hsteps hdims

theorem infer_follows (h : Fit names whole sym conc) (hwhole : ∀ i ∈ [1, 2, 3, 4], i ∈ whole) :
    Outcome.Follows (List.Forall₂ (Fits names)) (infer sym) (infer conc) := by
  rw [infer_eq, infer_eq]
  refine (h.demand 0).bind fun x u hx => ?_
  refine (h.demandWhole (hwhole 1 (by decide))).bind fun s s' hs => ?_
  refine (parameter_follows hs).bind fun starts starts' hstarts => ?_
  refine (h.demandWhole (hwhole 2 (by decide))).bind fun e e' he => ?_
  refine (parameter_follows he).bind fun stops stops' hstops => ?_
  refine (optionalParameter_follows (h.whole 3 (hwhole 3 (by decide)))).bind
    fun axes axes' haxes => ?_
  refine (optionalParameter_follows (h.whole 4 (hwhole 4 (by decide)))).bind
    fun steps steps' hsteps => ?_
  exact result_follows hx hstarts hstops haxes hsteps

end Slice

namespace Pad

theorem expand_follows {pads pads' : List (Option Int64)} (h : List.Forall₂ Told pads pads')
    (dims : List Nat) (rank : Nat) : Outcome.Follows (List.Forall₂ Told)
      (expand pads dims rank (some 0) : Outcome RuleError (List (Option Int64)))
      (expand pads' dims rank (some 0) : Outcome RuleError (List (Option Int64))) := by
  refine Outcome.follows_foldlM (A := (· = ·)) (List.forall₂_refl dims.zipIdx) ?_
    (Related.replicate (fun _ => id) _)
  rintro full full' ⟨dim, i⟩ ⟨dim', i'⟩ hfull heq
  cases heq
  refine (Outcome.follows_ofOption (Related.getElem? h i)).bind fun a a' ha => ?_
  refine (Outcome.follows_ofOption (Related.getElem? h _)).bind fun b b' hb => ?_
  exact Outcome.follows_ok (Related.set (Related.set hfull ha dim) hb _)

theorem allPads_follows {rank rank' : Option Nat} (hrank : Told rank rank')
    {pads pads' : List (Option Int64)} (h : List.Forall₂ Told pads pads')
    {axes axes' : Option SymTensor} (haxes : Option.Rel (FitsWhole names) axes axes') :
    Outcome.Follows ListTold (allPads rank pads axes) (allPads rank' pads' axes') := by
  have hnone : ∀ y : Outcome RuleError (Option (List (Option Int64))),
      Outcome.Follows ListTold (.ok none : Outcome RuleError (Option (List (Option Int64)))) y :=
    fun y b hb => .inr ⟨none, rfl, fun l hl => by cases hl⟩
  cases haxes with
  | none => exact Outcome.follows_ok fun l hl => by cases hl; exact ⟨pads', rfl, h⟩
  | @some a a' ha =>
    cases rank with
    | none => exact hnone _
    | some n =>
      rw [hrank n rfl]
      cases hns : a.ints? with
      | none => simpa only [allPads, hns] using hnone _
      | some ns =>
        simp only [allPads, hns, ha.ints? ns hns, h.length_eq]
        refine Outcome.follows_bind_same fun dims _ => Outcome.follows_bind_same fun _ _ => ?_
        refine (expand_follows h dims n).bind fun full full' hfull => ?_
        exact Outcome.follows_ok fun l hl => by cases hl; exact ⟨full', rfl, hfull⟩

theorem readsEmpty_of_told {ds cs : List SymDim} (hd : List.Forall₂ (SymDim.Covers names) ds cs)
    {pads pads' : List (Option Int64)} (h : List.Forall₂ Told pads pads')
    (hempty : readsEmpty ds pads = true) : readsEmpty cs pads' = true := by
  rw [readsEmpty, hd.length_eq] at hempty
  refine Related.any (Related.zip hd (Related.zip (List.forall₂_take cs.length h)
    (List.forall₂_drop cs.length h))) ?_ hempty
  rintro ⟨d, a, b⟩ ⟨c, a', b'⟩ ⟨hdc, ha, hb⟩ hread
  simp only [Bool.and_eq_true, Bool.or_eq_true, beq_iff_eq] at hread ⊢
  obtain ⟨rfl, hread⟩ := hread
  exact ⟨hdc, hread.imp ha.any hb.any⟩

theorem outputShape_follows (op : Pad) {s c : SymShape} (hs : s.Covers names c)
    {pads pads' : List (Option Int64)} (h : List.Forall₂ Told pads pads') :
    Outcome.Follows (SymShape.Covers names) (op.outputShape s pads)
      (op.outputShape c pads') := by
  refine (hs.pad h).bind fun t r ht => ?_
  refine (Outcome.follows_refuseIf fun hread => ?_).bind fun _ _ _ => Outcome.follows_ok ht
  simp only [Bool.and_eq_true, decide_eq_true_eq] at hread ⊢
  refine ⟨hread.1, ?_⟩
  cases s with
  | unknown => simp [readsEmpty, SymShape.dims, SymShape.dims?] at hread
  | ranked ds =>
    obtain ⟨cs, rfl, hd⟩ := hs
    exact readsEmpty_of_told hd h hread.2

theorem rank?_pad {s r : SymShape} {pads : List (Option Int64)} (h : s.pad pads = .ok r) {n : Nat}
    (hs : s.rank? = some n) : r.rank? = some n := by
  cases s with
  | unknown => simp at hs
  | ranked ds =>
    obtain ⟨_, hlen, h⟩ := Outcome.bind_eq_ok.mp h
    obtain ⟨rs, hrs, h⟩ := Outcome.bind_eq_ok.mp h
    cases h
    have hcount := (Outcome.mapM_eq_ok.mp hrs).length_eq
    rw [Outcome.refuseIf_eq_ok, not_not] at hlen
    rw [SymShape.rank?_ranked, Option.some.injEq] at hs ⊢
    simp at hcount
    omega

def result (op : Pad) (x : SymTensor) (axes : Option SymTensor) :
    Option (List SymElement) → Outcome RuleError (List SymTensor)
  | none => return [.ofShape x.dtype (x.rank?.elim .unknown .ofRank)]
  | some es => do
    match ← allPads x.rank? (es.map (·.int?)) axes with
    | none => return [.ofShape x.dtype (x.rank?.elim .unknown .ofRank)]
    | some pads => return [.ofShape x.dtype (← op.outputShape x.shape pads)]

theorem infer_eq (op : Pad) (inputs : SymInputs) : op.infer inputs = (do
    let x ← inputs.demand 0
    let pads ← inputs.demand 1
    .refuseIf (pads.dtype ≠ .int) (.type .pads)
    let _ ← pads.shape.declareRank 1
    .refuseIf ((Inputs.find? inputs 2).any (·.dtype ≠ x.dtype)) (.type .padValue)
    op.result x (Inputs.find? inputs 3) pads.elements) := by
  unfold infer
  refine bind_congr fun x => bind_congr fun pads => bind_congr fun _ => ?_
  refine bind_congr fun _ => bind_congr fun _ => ?_
  cases pads.elements with
  | none => rfl
  | some es => exact bind_congr fun full => by cases full <;> rfl

theorem result_ok {op : Pad} {x : SymTensor} {axes : Option SymTensor}
    {es : Option (List SymElement)} {ws : List SymTensor} (h : op.result x axes es = .ok ws) :
    ∃ w, ws = [w] ∧ w.dtype = x.dtype ∧ ∀ n, x.rank? = some n → w.rank? = some n := by
  have hrank : ∀ n, x.rank? = some n →
      (SymTensor.ofShape x.dtype (x.rank?.elim .unknown .ofRank)).rank? = some n := by
    intro n hn
    rw [hn, Option.elim_some, SymTensor.rank?, shape_ofShape, SymShape.rank?_ofRank]
  cases es with
  | none => exact ⟨_, (Outcome.ok.inj h).symm, rfl, hrank⟩
  | some es =>
    obtain ⟨full, -, h⟩ := Outcome.bind_eq_ok.mp h
    cases full with
    | none => exact ⟨_, (Outcome.ok.inj h).symm, rfl, hrank⟩
    | some pads =>
      obtain ⟨s, hs, h⟩ := Outcome.bind_eq_ok.mp h
      obtain ⟨r, hr, hs⟩ := Outcome.bind_eq_ok.mp hs
      obtain ⟨_, -, hs⟩ := Outcome.bind_eq_ok.mp hs
      cases hs
      exact ⟨_, (Outcome.ok.inj h).symm, rfl, fun n hn => rank?_pad hr hn⟩

theorem result_follows (op : Pad) {x u : SymTensor} (hx : Fits names x u)
    {axes axes' : Option SymTensor} (haxes : Option.Rel (FitsWhole names) axes axes')
    {p q : SymTensor} (hp : FitsWhole names p q) :
    Outcome.Follows (List.Forall₂ (Fits names)) (op.result x axes p.elements)
      (op.result u axes' q.elements) := by
  have hunpadded : Outcome.Follows (List.Forall₂ (Fits names))
      (.ok [.ofShape x.dtype (x.rank?.elim .unknown .ofRank)] : Outcome RuleError (List SymTensor))
      (op.result u axes' q.elements) := by
    intro ws hws
    obtain ⟨w, rfl, hdtype, hrank⟩ := result_ok hws
    exact .inr ⟨_, rfl, .cons (ofShape_fits (hx.dtype.trans hdtype.symm)
      (hx.shape.rankOnly hrank)) .nil⟩
  cases hes : p.elements with
  | none => exact hunpadded
  | some es =>
    obtain ⟨cs, hc, hcs⟩ := hp.elements hes
    have htold : List.Forall₂ Told (es.map (·.int?)) (cs.map (·.int?)) :=
      Related.map hcs fun _ _ hec => hec.int?
    have hall := allPads_follows hx.shape.rank? htold haxes
    intro ws hws
    have hdrop := hunpadded ws (hc ▸ hws)
    rw [hc] at hws
    obtain ⟨full', hfull', hres⟩ := Outcome.bind_eq_ok.mp hws
    rcases hall full' hfull' with hfault | ⟨full, hfull, hl⟩
    · exact .inl (by simp [result, rank?, hfault])
    · cases full with
      | none => simpa [result, rank?, hfull] using hdrop
      | some l =>
        obtain ⟨l', rfl, hpads⟩ := hl l rfl
        have hout := (op.outputShape_follows hx.shape hpads).bind fun s c hs =>
          @follows_single _ _ _ RuleError RuleError (fits_ofShape hx.dtype hs)
        simpa [result, rank?, hfull] using hout ws hres

theorem infer_follows (op : Pad) (h : Fit names whole sym conc) (hwhole : ∀ i ∈ [1, 3], i ∈ whole) :
    Outcome.Follows (List.Forall₂ (Fits names)) (op.infer sym) (op.infer conc) := by
  rw [infer_eq, infer_eq]
  refine (h.demand 0).bind fun x u hx => ?_
  refine (h.demandWhole (hwhole 1 (by decide))).bind fun p q hp => ?_
  rw [hp.1.dtype]
  refine Outcome.follows_bind_same fun _ _ => (hp.1.shape.declareRank 1).bind fun _ _ _ => ?_
  refine (Outcome.follows_refuseIf fun hvalue => ?_).bind fun _ _ _ => ?_
  · exact h.find?_type 2 hx.dtype hvalue
  · exact op.result_follows hx (h.whole 3 (hwhole 3 (by decide))) hp

end Pad

end TensorGraph
