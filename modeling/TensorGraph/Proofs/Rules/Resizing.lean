import TensorGraph.Proofs.Covering.Inputs
import TensorGraph.Spatial.Resizing

/-! The shape rule of resizing. Scales that turn out to be empty in a run count as omitted, which
inference may not know; the rule then looks at scales that the run does not look at. -/

namespace TensorGraph.Resize

open SymTensor SymInputs

variable {names : Names} {whole : List Nat} {sym conc : SymInputs}

def RefusesScales (x scales : SymTensor) : Prop :=
  scales.dtype ≠ .float ∨ x.rank?.isSome ∧ scales.rank?.any (· ≠ 1)

def RefusesDropped (sym : SymInputs) (inputs : ValueInputs) : Prop :=
  ∃ x t v, Inputs.find? sym 0 = some x ∧ Inputs.find? sym 2 = some t ∧
    Inputs.find? inputs 2 = some v ∧ t.shape.count ≠ .size 0 ∧ v.isEmpty ∧ RefusesScales x t

theorem nonEmpty_eq_some {t u : SymTensor} :
    nonEmpty (some t) = some u ↔ t = u ∧ t.shape.count ≠ .size 0 := by
  simp only [nonEmpty, Option.filter_some]
  split_ifs with h <;> simp_all

theorem nonEmpty_eq_none {t : SymTensor} :
    nonEmpty (some t) = none ↔ t.shape.count = .size 0 := by
  simp [nonEmpty, Option.filter_some]

theorem scaledDim_covers {d c : SymDim} (h : d.Covers names c) {s t : Option Float32}
    (hs : Told s t) : (scaledDim d s).Covers names (scaledDim c t) := by
  cases s with
  | none => exact SymDim.covers_unknown _
  | some s =>
    rw [hs s rfl, scaledDim, scaledDim]
    split_ifs with hone
    · exact h
    · cases hn : d.value? with
      | none => exact SymDim.covers_unknown _
      | some n =>
        rw [h.value? n hn]
        exact rfl

theorem float?_get {t u : SymTensor} (h : FitsWhole names t u) (k : Nat) :
    Told (t.get k).float? (u.get k).float? := by
  cases hes : t.elements with
  | none =>
    intro x hx
    simp [SymTensor.get, hes, SymElement.float?] at hx
  | some es =>
    obtain ⟨cs, hc, hcs⟩ := h.elements hes
    rw [SymTensor.get, SymTensor.get, hes, hc]
    exact (Related.getD hcs (SymElement.covers_unknown .unknown) k).float?

theorem scaledShape_follows {s c : SymShape} (hs : s.Covers names c) {t u : SymTensor}
    (ht : FitsWhole names t u) :
    Outcome.Follows (SymShape.Covers names) (scaledShape s t) (scaledShape c u) := by
  unfold scaledShape
  rw [ht.1.dtype]
  refine Outcome.follows_bind_same fun _ _ => ?_
  cases s with
  | unknown => exact SymShape.follows_unknown _
  | ranked ds =>
    obtain ⟨cs, rfl, hd⟩ := hs
    refine (ht.1.shape.declareRank 1).bind fun r r' hr => ?_
    rw [hd.length_eq]
    refine ((hr.dim 0).refine (SymDim.covers_ofSize _)).bind fun _ _ _ => ?_
    refine Outcome.follows_ok
      (SymShape.ranked_covers_ranked.mpr (Related.map (Related.zipIdx hd 0) ?_))
    rintro ⟨d, k⟩ ⟨c, k'⟩ ⟨hdc, rfl⟩
    exact scaledDim_covers hdc (float?_get ht k)

/-- Refuses sizes whose number is known not to be the rank. -/
def demandCount : Option Nat → Option Nat → Outcome RuleError Unit
  | some rank, some count => .refuseIf (rank ≠ count) (.shape .sizesCount)
  | _, _ => .ok ()

theorem sizedShape_eq (x : SymShape) (sizes : SymTensor) : sizedShape x sizes = (do
    .refuseIf (sizes.dtype ≠ .int) (.type .sizes)
    let shape ← sizes.toSizes
    demandCount x.rank? shape.rank?
    return shape) := by
  unfold sizedShape
  refine bind_congr fun _ => bind_congr fun s => ?_
  cases x.rank? <;> cases s.rank? <;> rfl

theorem demandCount_follows {m n m' n' : Option Nat} (h : Told m m') (h' : Told n n') :
    Outcome.Follows (fun _ _ => True) (demandCount m n) (demandCount m' n') := by
  have hskip : ∀ y : Outcome RuleError Unit,
      Outcome.Follows (fun _ _ => True) (.ok () : Outcome RuleError Unit) y :=
    fun _ _ _ => .inr ⟨(), rfl, trivial⟩
  cases m with
  | none => exact hskip _
  | some m =>
    cases n with
    | none => exact hskip _
    | some n =>
      rw [h m rfl, h' n rfl]
      exact (Outcome.follows_refl _).mono fun _ _ _ => trivial

theorem sizedShape_follows {s c : SymShape} (hs : s.Covers names c) {t u : SymTensor}
    (ht : FitsWhole names t u) :
    Outcome.Follows (SymShape.Covers names) (sizedShape s t) (sizedShape c u) := by
  rw [sizedShape_eq, sizedShape_eq, ht.1.dtype]
  refine Outcome.follows_bind_same fun _ _ => ht.toSizes.bind fun r r' hr => ?_
  refine (demandCount_follows hs.rank? hr.rank?).bind fun _ _ _ => Outcome.follows_ok hr

theorem rank?_sizedShape {c r : SymShape} {u : SymTensor} (h : sizedShape c u = .ok r) {n m : Nat}
    (hc : c.rank? = some n) (hr : r.rank? = some m) : m = n := by
  rw [sizedShape_eq] at h
  obtain ⟨_, -, h⟩ := Outcome.bind_eq_ok.mp h
  obtain ⟨s, -, h⟩ := Outcome.bind_eq_ok.mp h
  obtain ⟨_, hcount, h⟩ := Outcome.bind_eq_ok.mp h
  cases h
  rw [hc, hr, demandCount, Outcome.refuseIf_eq_ok, not_not] at hcount
  exact hcount.symm

/-- Scales that are dropped in the run tell at most the rank of the result. -/
theorem scaledShape_of_dropped {s : SymShape} {t u : SymTensor} (ht : FitsWhole names t u)
    (hkeep : t.shape.count ≠ .size 0) (hdrop : u.shape.count = .size 0) {r : SymShape}
    (h : scaledShape s t = .ok r) :
    s = .unknown ∧ r = .unknown ∨ ∃ ds, s = .ranked ds ∧ r = .ofRank ds.length := by
  obtain ⟨_, -, h⟩ := Outcome.bind_eq_ok.mp h
  cases s with
  | unknown =>
    cases h
    exact .inl ⟨rfl, rfl⟩
  | ranked ds =>
    obtain ⟨_, -, h⟩ := Outcome.bind_eq_ok.mp h
    obtain ⟨_, -, h⟩ := Outcome.bind_eq_ok.mp h
    cases h
    refine .inr ⟨ds, rfl, ?_⟩
    have hnone : t.elements = none := by
      cases hes : t.elements with
      | none => rfl
      | some es =>
        obtain ⟨-, sizes, hsizes, -⟩ := trackedCount_eq_some (ht.1.tracked es hes)
        have hshape := (SymShape.toShape?_eq_some hsizes).1
        have hu := SymShape.ofShape_covers (hshape ▸ ht.1.shape)
        exact absurd (hshape ▸ hu ▸ hdrop) hkeep
    have hdims : ∀ p : SymDim × Nat, scaledDim p.1 (t.get p.2).float? = .unknown := by
      intro p
      simp [SymTensor.get, hnone, SymElement.float?, scaledDim]
    rw [SymShape.ofRank, SymShape.ranked.injEq, List.eq_replicate_iff]
    refine ⟨by simp, fun d hd => ?_⟩
    obtain ⟨p, -, rfl⟩ := List.mem_map.mp hd
    exact hdims p

def sized (x : SymTensor) : Option SymTensor → Outcome RuleError (List SymTensor)
  | some sizes => return [.ofShape x.dtype (← sizedShape x.shape sizes)]
  | none => .error (.missingInput 2)

def scaled (x : SymTensor) (sizes : Option SymTensor) :
    Option SymTensor → Outcome RuleError (List SymTensor)
  | some scales => return [.ofShape x.dtype (← scaledShape x.shape scales)]
  | none => sized x sizes

theorem infer_eq (inputs : SymInputs) : infer inputs = (do
    let x ← inputs.demand 0
    .refuseIf (x.dtype ≠ .float) (.type .resizeInput)
    scaled x (nonEmpty (Inputs.find? inputs 3)) (nonEmpty (Inputs.find? inputs 2))) := by
  unfold infer
  refine bind_congr fun x => bind_congr fun _ => ?_
  cases nonEmpty (Inputs.find? inputs 2) <;> cases nonEmpty (Inputs.find? inputs 3) <;> rfl

/-- Both sides keep a parameter or both omit it, unless only the run knows that it is empty. -/
theorem nonEmpty_cases {t u : Option SymTensor} (h : Option.Rel (FitsWhole names) t u) :
    Option.Rel (FitsWhole names) (nonEmpty t) (nonEmpty u) ∨ ∃ a b, t = some a ∧ u = some b ∧
      FitsWhole names a b ∧ a.shape.count ≠ .size 0 ∧ b.shape.count = .size 0 := by
  cases h with
  | none => exact .inl .none
  | @some a b h =>
    by_cases hb : b.shape.count = .size 0
    · by_cases ha : a.shape.count = .size 0
      · rw [nonEmpty_eq_none.mpr ha, nonEmpty_eq_none.mpr hb]
        exact .inl .none
      · exact .inr ⟨a, b, rfl, rfl, h, ha, hb⟩
    · have ha : a.shape.count ≠ .size 0 := by
        intro ha
        have hcount := h.1.shape.count
        rw [ha, SymDim.covers_size] at hcount
        exact hb hcount
      rw [nonEmpty_eq_some.mpr ⟨rfl, ha⟩, nonEmpty_eq_some.mpr ⟨rfl, hb⟩]
      exact .inl (.some h)

theorem sized_follows {x u : SymTensor} (hx : Fits names x u) {t v : Option SymTensor}
    (h : Option.Rel (FitsWhole names) t v) :
    Outcome.Follows (List.Forall₂ (Fits names)) (sized x (nonEmpty t)) (sized u (nonEmpty v)) := by
  rcases nonEmpty_cases h with h | ⟨a, b, -, rfl, -, -, hb⟩
  · generalize nonEmpty t = p at h ⊢
    generalize nonEmpty v = q at h ⊢
    cases h with
    | none => exact Outcome.follows_error _ _
    | some h =>
      exact (sizedShape_follows hx.shape h).bind fun s c hs =>
        follows_single (fits_ofShape hx.dtype hs)
  · rw [nonEmpty_eq_none.mpr hb]
    exact Outcome.follows_error _ _

/-- The result for scales that the run drops, if the rule does not refuse them, leaves the sizes of
the run possible. -/
theorem scaled_of_dropped {x u t v : SymTensor} (hx : Fits names x u) (ht : FitsWhole names t v)
    (hkeep : t.shape.count ≠ .size 0) (hdrop : v.shape.count = .size 0) {sizes : Option SymTensor}
    {r : SymShape} (hr : scaledShape x.shape t = .ok r) {ws : List SymTensor}
    (hws : sized u sizes = .ok ws) (hranked : ∀ w ∈ ws, w.shape ≠ .unknown) :
    List.Forall₂ (Fits names) [.ofShape x.dtype r] ws := by
  cases sizes with
  | none => cases hws
  | some sizes =>
    obtain ⟨s, hs, hws⟩ := Outcome.bind_eq_ok.mp hws
    cases hws
    refine .cons (fits_ofShape hx.dtype ?_) .nil
    rcases scaledShape_of_dropped ht hkeep hdrop hr with ⟨-, rfl⟩ | ⟨ds, hds, rfl⟩
    · exact SymShape.covers_unknown _
    · have hrank := hx.shape.rank? ds.length (by rw [hds, SymShape.rank?_ranked])
      cases s with
      | unknown => exact absurd rfl (hranked _ List.mem_cons_self)
      | ranked ss =>
        rw [← rank?_sizedShape hs hrank (SymShape.rank?_ranked ss)]
        exact SymShape.ofRank_covers ss

theorem product_singleton (d : SymDim) : SymDim.product [d] = d := by
  change SymDim.mul (.size 1) d = d
  by_cases hd : d = .size 1 <;> simp [SymDim.mul, hd]

/-- Scales that the rule does not refuse for their type or rank are not refused at all if the run
drops them. -/
theorem scaledShape_ne_error {x t v : SymTensor} (ht : FitsWhole names t v)
    (hkeep : t.shape.count ≠ .size 0) (hdrop : v.shape.count = .size 0) (hdtype : t.dtype = .float)
    (hrank : x.rank?.isSome → ¬t.rank?.any (· ≠ 1)) (e : RuleError) :
    scaledShape x.shape t ≠ .error e := by
  refine Outcome.bind_ne_error (by simp [Outcome.refuseIf, hdtype]) fun _ _ => ?_
  rw [SymTensor.rank?, SymTensor.rank?] at hrank
  have hs := ht.1.shape.count
  rw [hdrop] at hs
  cases hx : x.shape with
  | unknown => simp
  | ranked ds =>
    have hvector := hrank (by rw [hx, SymShape.rank?_ranked]; rfl)
    cases hr : t.shape with
    | unknown =>
      refine Outcome.bind_ne_error ?_ fun r hr => ?_
      · exact Outcome.bind_ne_error (Outcome.demand_ne_error _) fun _ _ => by simp
      · obtain ⟨_, -, hr⟩ := Outcome.bind_eq_ok.mp hr
        cases hr
        simp [SymShape.ofRank, SymShape.dim, SymShape.dims, SymShape.dims?, SymDim.ofSize,
          SymDim.refine]
    | ranked es =>
      rw [hr, SymShape.rank?_ranked] at hvector
      obtain ⟨d, rfl⟩ := List.length_eq_one_iff.mp (by simpa using hvector : es.length = 1)
      rw [hr, SymShape.count, product_singleton] at hs hkeep
      refine Outcome.bind_ne_error (by simp [SymShape.declareRank]) fun r hr => ?_
      obtain rfl : SymShape.ranked [d] = r := by simpa [SymShape.declareRank] using hr
      refine Outcome.bind_ne_error ?_ fun _ _ => by simp
      cases d with
      | size m =>
        rw [SymDim.covers_size] at hs
        exact absurd hs.symm hkeep
      | unknown | param _ =>
        simp [SymShape.dim, SymShape.dims, SymShape.dims?, SymDim.ofSize, SymDim.refine]

/-- Where only the run drops the scales, what the rule gives leaves the result of the run
possible. -/
theorem scaled_related {x u : SymTensor} (hx : Fits names x u) {t v s r : Option SymTensor}
    (h : Option.Rel (FitsWhole names) t v) (h' : Option.Rel (FitsWhole names) s r)
    {ts ws : List SymTensor} (hts : scaled x (nonEmpty s) (nonEmpty t) = .ok ts)
    (hws : scaled u (nonEmpty r) (nonEmpty v) = .ok ws) (hranked : ∀ w ∈ ws, w.shape ≠ .unknown) :
    List.Forall₂ (Fits names) ts ws := by
  rcases nonEmpty_cases h with h | ⟨a, b, rfl, rfl, hab, ha, hb⟩
  · generalize nonEmpty t = p at h hts
    generalize nonEmpty v = q at h hws
    cases h with
    | none => exact (sized_follows hx h').related hts hws
    | some h =>
      have hscaled := (scaledShape_follows hx.shape h).bind fun s c hs =>
        @follows_single _ _ _ RuleError RuleError (fits_ofShape hx.dtype hs)
      exact hscaled.related hts hws
  · rw [nonEmpty_eq_some.mpr ⟨rfl, ha⟩] at hts
    rw [nonEmpty_eq_none.mpr hb] at hws
    obtain ⟨r, hr, hts⟩ := Outcome.bind_eq_ok.mp hts
    cases hts
    exact scaled_of_dropped hx hab ha hb hr hws hranked

/-- What the rule accepts leaves the result of the run possible. -/
theorem infer_related (h : Fit names whole sym conc) (hwhole : ∀ i ∈ [2, 3], i ∈ whole)
    {ts ws : List SymTensor} (hts : infer sym = .ok ts) (hws : infer conc = .ok ws)
    (hranked : ∀ w ∈ ws, w.shape ≠ .unknown) : List.Forall₂ (Fits names) ts ws := by
  rw [infer_eq] at hts hws
  obtain ⟨x, hx, hts⟩ := Outcome.bind_eq_ok.mp hts
  obtain ⟨_, -, hts⟩ := Outcome.bind_eq_ok.mp hts
  obtain ⟨u, hu, hws⟩ := Outcome.bind_eq_ok.mp hws
  obtain ⟨_, -, hws⟩ := Outcome.bind_eq_ok.mp hws
  exact scaled_related ((h.demand 0).related hx hu) (h.whole 2 (hwhole 2 (by decide)))
    (h.whole 3 (hwhole 3 (by decide))) hts hws hranked

theorem infer_follows (h : Fit names whole sym conc) (hwhole : ∀ i ∈ [2, 3], i ∈ whole)
    (hscales : ∀ x t v, Inputs.find? sym 0 = some x → Inputs.find? sym 2 = some t →
      Inputs.find? conc 2 = some v → t.shape.count ≠ .size 0 → v.shape.count = .size 0 →
        ¬RefusesScales x t)
    (hranked : ∀ ws, infer conc = .ok ws → ∀ w ∈ ws, w.shape ≠ .unknown) :
    Outcome.Follows (List.Forall₂ (Fits names)) (infer sym) (infer conc) := by
  have hrelated : ∀ {ts ws}, infer sym = .ok ts → infer conc = .ok ws →
      List.Forall₂ (Fits names) ts ws :=
    fun hts hws => infer_related h hwhole hts hws (hranked _ hws)
  have herror : ∀ {ws}, infer conc = .ok ws → ∀ e, infer sym ≠ .error e := by
    intro ws hws e
    rw [infer_eq] at hws ⊢
    obtain ⟨u, hu, hws⟩ := Outcome.bind_eq_ok.mp hws
    obtain ⟨_, hfloat, hws⟩ := Outcome.bind_eq_ok.mp hws
    refine Outcome.bind_ne_error ((h.demand 0).not_error hu e) fun x hx => ?_
    have hxu := (h.demand 0).related hx hu
    rw [hxu.dtype]
    refine Outcome.bind_ne_error (by rw [hfloat]; simp) fun _ _ => ?_
    have hsizes := h.whole 3 (hwhole 3 (by decide))
    rcases nonEmpty_cases (h.whole 2 (hwhole 2 (by decide)))
      with hab | ⟨a, b, ha, hb, hab, hka, hkb⟩
    · generalize nonEmpty (Inputs.find? sym 2) = p at hab ⊢
      generalize nonEmpty (Inputs.find? conc 2) = q at hab hws
      cases hab with
      | none => exact (sized_follows hxu hsizes).not_error hws e
      | some hab =>
        have hscaled := (scaledShape_follows hxu.shape hab).bind fun s c hs =>
          @follows_single _ _ _ RuleError RuleError (fits_ofShape hxu.dtype hs)
        exact hscaled.not_error hws e
    · rw [ha, nonEmpty_eq_some.mpr ⟨rfl, hka⟩]
      have hrefuse := hscales x a b (demand_eq_ok.mp hx) ha hb hka hkb
      rw [RefusesScales, not_or, not_not, not_and] at hrefuse
      exact Outcome.bind_ne_error
        (scaledShape_ne_error hab hka hkb hrefuse.1 hrefuse.2 e) fun _ _ => by simp
  intro ws hws
  cases hsym : infer sym with
  | ok ts => exact .inr ⟨ts, rfl, hrelated hsym hws⟩
  | error e => exact absurd hsym (herror hws e)
  | fault => exact .inl rfl

/-- Scales that the run drops can make the rule refuse inputs that the run accepts. -/
theorem infer_of_refusesDropped {inputs : ValueInputs} (h : RefusesDropped sym inputs) :
    ∃ e, infer sym = .error e := by
  obtain ⟨x, t, u, hx, ht, -, hkeep, -, hbad⟩ := h
  rw [infer_eq, demand_eq_ok.mpr hx, Outcome.ok_bind, ht, nonEmpty_eq_some.mpr ⟨rfl, hkeep⟩]
  by_cases hfloat : x.dtype = .float
  · rw [Outcome.refuseIf_neg (by simpa using hfloat), Outcome.ok_bind, scaled]
    unfold scaledShape
    by_cases htype : t.dtype = .float
    · obtain ⟨hsome, hrank⟩ := hbad.resolve_left (by simpa using htype)
      rw [Outcome.refuseIf_neg (by simpa using htype), Outcome.ok_bind]
      rw [SymTensor.rank?] at hsome hrank
      cases hs : x.shape with
      | unknown => simp [hs] at hsome
      | ranked ds =>
        cases hr : t.shape with
        | unknown => simp [hr] at hrank
        | ranked es =>
          rw [hr, SymShape.rank?_ranked] at hrank
          have hlen : es.length ≠ 1 := by simpa using hrank
          exact ⟨_, by simp [SymShape.declareRank, hlen]; rfl⟩
    · exact ⟨_, by simp [Outcome.refuseIf, htype]; rfl⟩
  · exact ⟨_, by simp [Outcome.refuseIf, hfloat]; rfl⟩

end TensorGraph.Resize
