import TensorGraph.Proofs.Concrete.Parameters
import TensorGraph.Proofs.Faults.Rules

/-! Rules that compute with integers which they read from their inputs or attributes do not fault
where these integers are moderate. -/

namespace TensorGraph

open Outcome SymInputs

variable {ε : Type} {sym : SymInputs}

/-- `2 ^ 31`, up to which factors have a product that fits into 64 bits. -/
def factorLimit : Nat := 2147483648

namespace Blocks

variable {block : Nat}

theorem noFault_dims (x : SymTensor) (block : Nat) : (dims x block).NoFault :=
  noFault_bind (noFault_refuseIf _ _) fun _ _ =>
    noFault_bind (x.shape.noFault_declareRank (by decide)) fun _ _ => noFault_ok _

theorem pos_of_dims {x : SymTensor} {ds : SymDim × SymDim × SymDim × SymDim}
    (h : dims x block = .ok ds) : 0 < block := by
  obtain ⟨_, hzero, -⟩ := bind_eq_ok.mp h
  exact Nat.pos_of_ne_zero (refuseIf_eq_ok.mp hzero)

theorem area_bounds (hpos : 0 < block) (hblock : block ≤ factorLimit) :
    0 < block * block ∧ block * block < intLimit := by
  refine ⟨Nat.mul_pos hpos hpos, (Nat.mul_le_mul hblock hblock).trans_lt ?_⟩
  decide

theorem exists_area (hpos : 0 < block) (hblock : block ≤ factorLimit) :
    ∃ n : Int64, (area block : Outcome ε SymDim) = .ok (.size n) ∧ 0 < n.toInt := by
  have hlimit := intLimit_eq
  have harea := area_bounds hpos hblock
  have hint : (intOfSize block).toInt = block :=
    toInt_intOfSize (hblock.trans_lt (by decide))
  obtain ⟨n, hn, hsquare⟩ := exists_checkInt (ε := ε) (n := (block : Int) * block)
    (by rw [FitsInt, ← Int.natCast_mul]; omega)
  refine ⟨n, ?_, by rw [hsquare, ← Int.natCast_mul]; omega⟩
  simp only [area, hint, hn, ok_bind]
  rfl

theorem noFault_demandMultiple (d : SymDim) {divisor : Nat} (hpos : 0 < divisor)
    (hdivisor : divisor < intLimit) : (demandMultiple d divisor).NoFault := by
  unfold demandMultiple
  split
  · exact noFault_ok _
  · next n _ =>
    have hint := toInt_intOfSize hdivisor
    have hdiv : (divInt n (intOfSize divisor) : Outcome RuleError Int64).NoFault :=
      noFault_divInt_iff.mpr (by omega)
    exact noFault_bind (noFault_remInt hdiv) fun _ _ => noFault_refuseIf _ _

end Blocks

open Blocks

theorem DepthToSpace.noFault_infer {op : DepthToSpace} (hop : op.block ≤ factorLimit)
    (sym : SymInputs) : (op.infer sym).NoFault := by
  refine noFault_bind (sym.noFault_demand 0) fun x _ => ?_
  refine noFault_bind (noFault_dims x _) fun ds hds => ?_
  obtain ⟨hpos, hlt⟩ := area_bounds (pos_of_dims hds) hop
  obtain ⟨area, harea, hnonneg⟩ := exists_area (ε := RuleError) (pos_of_dims hds) hop
  dsimp only
  refine noFault_bind (noFault_checkSize (hlt.trans (by decide))) fun _ hchecked => ?_
  obtain ⟨-, rfl⟩ := checkSize_eq_ok.mp hchecked
  refine noFault_bind (noFault_demandMultiple _ hpos hlt) fun _ _ => ?_
  rw [harea, ok_bind]
  exact noFault_bind (SymDim.noFault_floorDiv _ (by omega)) fun _ _ => noFault_ok _

theorem SpaceToDepth.noFault_infer {op : SpaceToDepth} (hop : op.block ≤ factorLimit)
    (sym : SymInputs) : (op.infer sym).NoFault := by
  refine noFault_bind (sym.noFault_demand 0) fun x _ => ?_
  refine noFault_bind (noFault_dims x _) fun ds hds => ?_
  have hpos := pos_of_dims hds
  have hlt : op.block < intLimit := hop.trans_lt (by decide)
  obtain ⟨area, harea, -⟩ := exists_area (ε := RuleError) hpos hop
  have hdiv : ∀ d : SymDim, (d.floorDiv (.ofSize op.block) : Outcome RuleError SymDim).NoFault :=
    fun d => d.noFault_floorDiv (by rw [toInt_intOfSize hlt]; omega)
  dsimp only
  refine noFault_bind (noFault_demandMultiple _ hpos hlt) fun _ _ => ?_
  refine noFault_bind (noFault_demandMultiple _ hpos hlt) fun _ _ => ?_
  rw [harea, ok_bind]
  exact noFault_bind (hdiv _) fun _ _ => noFault_bind (hdiv _) fun _ _ => noFault_ok _

theorem SymInputs.Within.single {i bound : Nat} (h : sym.Within i bound) {t : SymTensor} {n : Int64}
    (ht : sym.demand i = .ok t) (hn : t.single? = some (.int n)) : n.toInt.natAbs ≤ bound := by
  unfold SymTensor.single? at hn
  split at hn
  · next e hes =>
    cases hn
    exact h t (find?_of_demand ht) _ hes _ List.mem_cons_self n rfl
  · cases hn

namespace Range

theorem signInt_cases (n : Int64) :
    n.toInt < 0 ∧ (signInt n).toInt = -1 ∨ n.toInt = 0 ∧ (signInt n).toInt = 0 ∨
      0 < n.toInt ∧ (signInt n).toInt = 1 := by
  unfold signInt
  split_ifs with hneg hzero
  · rw [Int64.lt_iff_toInt_lt, Int64.toInt_zero] at hneg
    exact .inl ⟨hneg, rfl⟩
  · subst hzero
    exact .inr (.inl ⟨rfl, rfl⟩)
  · rw [Int64.lt_iff_toInt_lt, Int64.toInt_zero] at hneg
    rw [← Int64.toInt_inj, Int64.toInt_zero] at hzero
    exact .inr (.inr ⟨by omega, rfl⟩)

theorem toInt_clamped {n : Int} (h : FitsInt n) : (Int64.ofIntClamp n).toInt = n :=
  Int64.toInt_ofIntClamp h.1 h.2

/-- Integers are counted unless the limit lies as far before the start as the least integer. -/
theorem noFault_intLength {start limit : Int64} (delta : Int64)
    (hstart : start.toInt.natAbs ≤ moderateLimit) (hlimit : limit.toInt.natAbs ≤ moderateLimit) :
    (intLength start limit delta).NoFault := by
  refine noFault_bind (noFault_refuseIf _ _) fun _ hzero => ?_
  have hne : delta.toInt ≠ 0 := fun h => refuseIf_eq_ok.mp hzero (Int64.toInt_inj.mp h)
  have hsign := signInt_cases delta
  have htop := fitsInt_toInt delta
  unfold FitsInt at htop
  refine noFault_bind (noFault_checkInt (by unfold FitsInt; omega)) fun rounding hrounding => ?_
  have hdelta := toInt_of_checkInt hrounding
  refine noFault_bind (noFault_divInt_iff.mpr ⟨hne, fun hover => ?_⟩) fun _ _ => noFault_ok _
  simp only [moderateLimit] at hstart hlimit
  -- steps of minus one need no rounding
  have hspan : (subClamped limit start).toInt = limit.toInt - start.toInt :=
    toInt_clamped (by unfold FitsInt; omega)
  have hleast := hover.1
  rw [addClamped, toInt_clamped (by unfold FitsInt; omega)] at hleast
  omega

theorem noFault_infer (h : sym.Within 0 moderateLimit) (h' : sym.Within 1 moderateLimit) :
    (infer sym).NoFault := by
  rw [infer_eq]
  refine noFault_bind (sym.noFault_demand 0) fun start hstart => ?_
  refine noFault_bind (sym.noFault_demand 1) fun limit hlimit => ?_
  refine noFault_bind (sym.noFault_demand 2) fun delta _ => ?_
  refine noFault_bind (noFault_refuseIf _ _) fun _ _ =>
      noFault_bind (noFault_refuseIf _ _) fun _ _ => ?_
  refine noFault_bind (noFault_refuseIf _ _) fun _ _ =>
      noFault_bind (noFault_refuseIf _ _) fun _ _ => ?_
  unfold result
  split
  · next hs hl _ =>
    exact noFault_bind (noFault_intLength _ (h.single hstart hs) (h'.single hlimit hl))
      fun _ _ => noFault_ok _
  · exact noFault_bind (noFault_bind (noFault_refuseIf _ _) fun _ _ => noFault_ok _)
      fun _ _ => noFault_ok _
  · exact noFault_bind (noFault_refuseIf _ _) fun _ _ => noFault_ok _

end Range

namespace Slice

variable {d : SymDim}

theorem noFault_resolve {dim step : Int64} (hdim : 0 ≤ dim.toInt ∧ dim.toInt ≤ moderateLimit)
    (hstep : step.toInt.natAbs ≤ moderateLimit) (start stop : Int64) :
    (SliceRange.resolve dim start stop step).NoFault := by
  by_cases hzero : step = 0
  · exact noFault_bind (noFault_refuseIf _ _) fun _ hok => absurd hzero (refuseIf_eq_ok.mp hok)
  · refine (SliceRange.noFault_resolve_iff hdim.1 hzero).mpr fun _ => ?_
    have hspan := (SliceRange.toInt_distance hdim.1 start stop step).2
    simp only [moderateLimit] at hdim hstep
    omega

theorem noFault_slice (hd : d.Moderate) (start stop : Option Int64) {step : Option Int64}
    (hstep : Bounded moderateLimit step) : (d.slice start stop step).NoFault := by
  refine noFault_bind (noFault_refuseIf _ _) fun _ hzero => ?_
  clear hzero
  split
  · next hn =>
    exact noFault_bind (noFault_resolve (hd _ hn) (hstep _ rfl) _ _)
      fun _ _ => noFault_ok _
  · exact noFault_ok _
  · exact noFault_ok _

theorem noFault_cutRange (hd : d.Moderate) {c : Cut} (hstep : Bounded moderateLimit c.step) :
    (cutRange d c).NoFault := by
  unfold cutRange
  split
  · next hn _ _ hc =>
    exact noFault_bind (noFault_resolve (hd _ hn) (hstep _ hc) _ _)
      fun _ _ => noFault_ok _
  · exact noFault_ok _

theorem noFault_positions (hd : d.Moderate) {c : Cut} {r : SliceRange}
    (h : cutRange d c = .ok (some r)) :
    ((List.range r.len).mapM r.position : Outcome ε (List Nat)).NoFault := by
  unfold cutRange at h
  split at h
  · next hn _ _ _ =>
    obtain ⟨_, hr, h⟩ := bind_eq_ok.mp h
    cases h
    refine noFault_mapM fun i hi => ?_
    exact SliceRange.noFault_position (hd _ hn).1 hr (List.mem_range.mp hi)
  · cases h

theorem noFault_slicedSteps (count : Nat) (steps : Option (Option (List (Option Int64)))) :
    (slicedSteps count steps).NoFault := by
  unfold slicedSteps
  split
  · exact noFault_ok _
  · exact noFault_ok _
  · split_ifs <;> simp

theorem moderate_slicedSteps {count : Nat} {steps : Option (Option (List (Option Int64)))}
    (hsteps : ∀ l, steps = some (some l) → ∀ step ∈ l, Bounded moderateLimit step)
    {taken : List (Option Int64)} (h : slicedSteps count steps = .ok taken) :
    ∀ step ∈ taken, Bounded moderateLimit step := by
  unfold slicedSteps at h
  split at h
  · cases h
    intro step hstep n hn
    rw [List.eq_of_mem_replicate hstep] at hn
    cases hn
    decide
  · cases h
    intro step hstep n hn
    rw [List.eq_of_mem_replicate hstep] at hn
    cases hn
  · split_ifs at h
    cases h
    exact hsteps _ rfl

theorem noFault_slicedDims {rank : Nat} (hrank : rank < intLimit) (count : Nat)
    (axes : Option (Option (List (Option Int64)))) : (slicedDims rank count axes).NoFault := by
  unfold slicedDims
  split
  · exact noFault_ok _
  · exact noFault_ok _
  · split
    · exact noFault_ok _
    · exact noFault_bind (noFault_refuseIf _ _) fun _ _ =>
        noFault_bind (Axis.noFault_resolveAll hrank _) fun _ _ =>
          noFault_bind (noFault_mapM fun axis _ => Axis.noFault_resolve hrank axis) fun _ _ =>
              noFault_ok _

theorem noFault_parameter (t : SymTensor) : (parameter t).NoFault :=
  noFault_bind (noFault_refuseIf _ _) fun _ _ =>
    noFault_bind (t.shape.noFault_declareRank (by decide)) fun _ _ => noFault_ok _

theorem noFault_optionalParameter (t : Option SymTensor) : (optionalParameter t).NoFault := by
  cases t with
  | none => exact noFault_ok _
  | some t => exact noFault_bind (noFault_parameter t) fun _ _ => noFault_ok _

theorem moderate_optionalParameter {i : Nat} (h : sym.Within i moderateLimit)
    {steps : Option (Option (List (Option Int64)))}
    (hsteps : optionalParameter (Inputs.find? sym i) = .ok steps) :
    ∀ l, steps = some (some l) → ∀ step ∈ l, Bounded moderateLimit step := by
  rintro l rfl step hstep n rfl
  cases ht : Inputs.find? sym i with
  | none =>
    rw [ht] at hsteps
    cases hsteps
  | some t =>
    rw [ht] at hsteps
    obtain ⟨read, hread, hok⟩ := bind_eq_ok.mp hsteps
    cases hok
    obtain ⟨_, -, hread⟩ := bind_eq_ok.mp hread
    obtain ⟨_, -, hread⟩ := bind_eq_ok.mp hread
    obtain ⟨es, hes, rfl⟩ := Option.map_eq_some_iff.mp (Outcome.ok.inj hread)
    obtain ⟨e, he, hint⟩ := List.mem_map.mp hstep
    cases e with
    | int m =>
      cases hint
      exact h t ht es hes _ he n rfl
    | unknown | param _ | float _ => cases hint

theorem noFault_cutAlong {x : SymTensor} (hx : x.Moderate) {ds : List SymDim}
    (hds : x.shape = .ranked ds) (starts stops : List (Option Int64))
    {steps : Option (Option (List (Option Int64)))}
    (hsteps : ∀ l, steps = some (some l) → ∀ step ∈ l, Bounded moderateLimit step)
    (dims : Option (List Nat)) : (cutAlong x ds starts stops steps dims).NoFault := by
  cases dims with
  | none => exact noFault_ok _
  | some dims =>
    refine noFault_bind (noFault_refuseIf _ _) fun _ _ => ?_
    refine noFault_bind (noFault_slicedSteps _ _) fun taken htaken => ?_
    have hcuts : ∀ c ∈ zipCuts dims starts stops taken, Bounded moderateLimit c.step :=
      fun c hc => moderate_slicedSteps hsteps htaken _ (step_of_mem_zipCuts hc)
    refine noFault_bind (noFault_foldlM (fun out c hc => ?_) ds) fun _ _ => ?_
    · exact noFault_bind (noFault_slice (hx.getD hds c.dim) _ _ (hcuts c hc)) fun _ _ =>
        noFault_ok _
    · refine noFault_bind (noFault_cutElements _ (fun es hes => ?_) fun c hc d hd => ?_)
        fun _ _ => noFault_ok _
      · exact (hx.elements es hes).trans_lt (by decide)
      · have hmoderate : d.Moderate := hx.getD (hds.trans (congrArg _ hd)) 0
        exact ⟨noFault_cutRange hmoderate (hcuts c hc), fun r => noFault_positions hmoderate⟩

theorem noFault_result {x : SymTensor} (hx : x.Moderate)
    (starts stops : Option (List (Option Int64))) (axes : Option (Option (List (Option Int64))))
    {steps : Option (Option (List (Option Int64)))}
    (hsteps : ∀ l, steps = some (some l) → ∀ step ∈ l, Bounded moderateLimit step) :
    (result x starts stops axes steps).NoFault := by
  unfold result
  split
  · exact noFault_ok _
  · next hds =>
    refine noFault_bind (noFault_refuseIf _ _) fun _ _ => ?_
    refine noFault_bind (noFault_slicedDims (hx.length_dims hds) _ _) fun dims _ => ?_
    exact noFault_cutAlong hx hds _ _ hsteps dims
  · exact noFault_ok _

theorem noFault_infer (h : sym.Moderate) (hsteps : sym.Within 4 moderateLimit) :
    (infer sym).NoFault := by
  rw [infer_eq]
  refine noFault_bind (sym.noFault_demand 0) fun x hx =>
      noFault_bind (sym.noFault_demand 1) fun s _ => ?_
  refine noFault_bind (noFault_parameter s) fun starts _ => ?_
  refine noFault_bind (sym.noFault_demand 2) fun e _ => ?_
  refine noFault_bind (noFault_parameter e) fun stops _ => ?_
  refine noFault_bind (noFault_optionalParameter _) fun axes _ => ?_
  refine noFault_bind (noFault_optionalParameter _) fun steps hread => ?_
  exact noFault_result (h.demand hx) _ _ _ (moderate_optionalParameter hsteps hread)

end Slice

namespace Split

theorem sum_extent_evenSizes (piece count : Nat) {left : Nat} (h : left < sizeLimit) :
    ((evenSizes piece count left).map extent).sum ≤ left := by
  induction count generalizing left with
  | zero => exact Nat.zero_le _
  | succ count ih =>
    have hfirst : extent (.ofSize (min piece left)) = min piece left :=
      sizeOfInt_intOfSize ((Nat.min_le_right _ _).trans_lt h)
    have hrest := @ih (left - min piece left) (by omega)
    rw [evenSizes, List.map_cons, List.sum_cons, hfirst]
    omega

structure Moderate (op : Split) (sym : SymInputs) : Prop where
  count : op.count ≤ factorLimit
  sizes : sym.Within 1 factorLimit

variable {op : Split}

theorem noFault_unknownSizes (hop : op.count ≤ factorLimit) :
    (op.unknownSizes : Outcome ε (List SymDim)).NoFault := by
  refine noFault_bind (noFault_checkRoom ?_) fun _ _ => noFault_ok _
  simp only [factorLimit, SymDim.bytes, byteLimit] at hop ⊢
  omega

theorem extent_le {d : SymDim} {bound : Nat}
    (h : ∀ n ∈ d.value?, 0 ≤ n.toInt ∧ n.toInt ≤ bound) : extent d ≤ bound := by
  cases hd : d.value? with
  | none =>
    rw [extent, hd]
    exact Nat.zero_le _
  | some n =>
    have hn := h n hd
    rw [extent, hd, Option.map_some, Option.getD_some,
      sizeOfInt_of_nonneg (by rw [Int64.le_iff_toInt_le]; exact hn.1)]
    omega

theorem int_of_toSizes {t : SymTensor} {ds : List SymDim} {n : Int64}
    (h : (t.toSizes : Outcome ε SymShape) = .ok (.ranked ds)) (hn : .size n ∈ ds) :
    ∃ es, t.elements = some es ∧ .int n ∈ es := by
  unfold SymTensor.toSizes at h
  split at h
  · next es hes =>
    obtain ⟨_, -, h⟩ := bind_eq_ok.mp h
    cases h
    obtain ⟨e, he, hdim⟩ := List.mem_map.mp hn
    cases e with
    | int m =>
      cases hdim
      exact ⟨es, hes, he⟩
    | unknown | param _ | float _ => cases hdim
  · split at h
    · split_ifs at h
      · obtain ⟨_, -, h⟩ := bind_eq_ok.mp h
        cases h
        cases List.eq_of_mem_replicate hn
      · cases h
    · cases h

theorem listedSizes_fit (hop : op.Moderate sym) {t : SymTensor} (ht : Inputs.find? sym 1 = some t)
    (hmoderate : t.Moderate) (d : SymDim) : (op.listedSizes d t).NoFault ∧
      ∀ es, op.listedSizes d t = .ok es → ∀ e ∈ es, extent e ≤ factorLimit := by
  rw [listedSizes_eq]
  constructor
  · refine noFault_bind (noFault_refuseIf _ _) fun _ _ =>
      noFault_bind hmoderate.noFault_toSizes fun s _ => ?_
    cases s with
    | unknown => exact noFault_unknownSizes hop.count
    | ranked ds => exact noFault_bind (noFault_refuseIf _ _) fun _ _ =>
        noFault_bind (noFault_refuseIf _ _) fun _ _ =>
          noFault_bind (noFault_refuseIf _ _) fun _ _ => noFault_ok _
  · intro es h e he
    obtain ⟨_, -, h⟩ := bind_eq_ok.mp h
    obtain ⟨s, hs, h⟩ := bind_eq_ok.mp h
    refine extent_le fun n hn => ?_
    obtain rfl := SymDim.value?_eq_some.mp hn
    cases s with
    | unknown =>
      obtain ⟨_, -, h⟩ := bind_eq_ok.mp h
      cases h
      cases List.eq_of_mem_replicate he
    | ranked ds =>
      obtain ⟨_, -, h⟩ := bind_eq_ok.mp h
      obtain ⟨_, hneg, h⟩ := bind_eq_ok.mp h
      obtain ⟨_, -, h⟩ := bind_eq_ok.mp h
      cases h
      obtain ⟨entries, hentries, hn⟩ := int_of_toSizes hs he
      have hsmall := hop.sizes t ht entries hentries _ hn n rfl
      have hnonneg : ¬n < 0 := fun hlt =>
        refuseIf_eq_ok.mp hneg (List.any_eq_true.mpr ⟨_, he, decide_eq_true hlt⟩)
      rw [Int64.lt_iff_toInt_lt, Int64.toInt_zero] at hnonneg
      omega

theorem sizes_fit (hop : op.Moderate sym) (h : sym.Moderate) (d : SymDim) :
    (op.sizes d (Inputs.find? sym 1)).NoFault ∧
      ∀ es, op.sizes d (Inputs.find? sym 1) = .ok es → (es.map extent).sum < sizeLimit := by
  have hcount := hop.count
  cases ht : Inputs.find? sym 1 with
  | some t =>
    have hlisted := listedSizes_fit hop ht (h.find? ht) d
    refine ⟨hlisted.1, fun es hes => ?_⟩
    have hlen : es.length = op.count := length_listedSizes hes
    calc (es.map extent).sum ≤ es.length * factorLimit := sum_extent_le (hlisted.2 es hes)
      _ ≤ factorLimit * factorLimit := Nat.mul_le_mul_right _ (hlen ▸ hcount)
      _ < sizeLimit := by decide
  | none =>
    unfold sizes
    cases hn : d.value? with
    | none =>
      refine ⟨noFault_unknownSizes hcount, fun es hes => ?_⟩
      obtain ⟨_, -, hes⟩ := bind_eq_ok.mp hes
      cases hes
      rw [sum_extent_of_unknown fun _ => List.eq_of_mem_replicate]
      decide
    | some n =>
      have hroom : op.count * SymDim.bytes < byteLimit := by
        simp only [factorLimit, SymDim.bytes, byteLimit] at hcount ⊢
        omega
      refine ⟨noFault_bind (noFault_checkRoom hroom) fun _ _ => noFault_ok _, fun es hes => ?_⟩
      obtain ⟨_, -, hes⟩ := bind_eq_ok.mp hes
      cases hes
      exact (sum_extent_evenSizes _ _ (sizeOfInt_lt n)).trans_lt (sizeOfInt_lt n)

theorem noFault_infer (hop : op.Moderate sym) (h : sym.Moderate) : (op.infer sym).NoFault := by
  refine noFault_bind (sym.noFault_demand 0) fun x hx =>
      noFault_bind (noFault_refuseIf _ _) fun _ _ => ?_
  cases hs : x.shape with
  | unknown =>
    have hcount := hop.count
    refine noFault_bind (noFault_checkRoom ?_) fun _ _ => noFault_ok _
    simp only [factorLimit, descriptionBytes, byteLimit] at hcount ⊢
    omega
  | ranked ds =>
    refine noFault_bind (Axis.noFault_resolve ((h.demand hx).length_dims hs) _) fun dim _ => ?_
    have hsizes := sizes_fit hop h (ds.getD dim .unknown)
    refine noFault_bind hsizes.1 fun es hes => noFault_pieces _ _ _ ?_
    rw [Option.getD_some, Nat.zero_add]
    exact hsizes.2 es hes

end Split

end TensorGraph
