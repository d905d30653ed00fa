import TensorGraph.Proofs.Faults.Counting
import TensorGraph.Proofs.Rules.Slicing
import TensorGraph.Proofs.Safety.Calls

/-! Slices. The kernel takes the very ranges that the rule has computed, so these do not overflow,
and the output has a position for each of theirs. -/

namespace TensorGraph

open Outcome Kernel

variable {inputs : ValueInputs} {outputs : List Value} {out x v : Value} {i : Nat} {ε α : Type}

theorem Axis.resolve_intOfSize {rank k : Nat} (hk : k < rank) (hrank : rank < intLimit) :
    resolve rank (intOfSize k) = .ok k := by
  have hlimit := intLimit_eq
  have hk' := toInt_intOfSize (n := k) (by omega)
  have hrank' := toInt_intOfSize hrank
  have hneg : ¬intOfSize k < 0 := by
    rw [Int64.lt_iff_toInt_lt, hk', Int64.toInt_zero]
    omega
  have hlt : intOfSize k < intOfSize rank := by
    rw [Int64.lt_iff_toInt_lt, hk', hrank']
    omega
  have hinside : ¬(intOfSize k < 0 ∨ intOfSize k ≥ intOfSize rank) := by
    rintro (h | h)
    · exact hneg h
    · exact Int64.not_le.mpr hlt h
  rw [resolve]
  dsimp only
  rw [if_neg hneg, ok_bind, if_neg hinside, sizeOfInt_intOfSize (by unfold sizeLimit; omega)]
  rfl

namespace Slice

theorem parameter_vector (hi : Operator.slice.valueInputs.contains i = true)
    {l : Option (List (Option Int64))} (h : parameter (Operator.slice.told i v) = .ok l) :
    ∃ t : Tensor Int64, v = .int t ∧ t.shape.length ≤ 1 ∧ l = some (t.data.map some) := by
  obtain ⟨_, hdtype, h⟩ := bind_eq_ok.mp h
  obtain ⟨s, hs, h⟩ := bind_eq_ok.mp h
  obtain ⟨t, rfl⟩ := Operator.int_of_dtype (not_not.mp (refuseIf_eq_ok.mp hdtype))
  rw [Operator.shape_told] at hs
  have hrank : t.shape.length ≤ 1 := (SymShape.declareRank_ofShape hs).1.le
  rw [Operator.elements_told hi hrank] at h
  cases h
  refine ⟨t, rfl, hrank, ?_⟩
  simp [SymElement.int?, Function.comp_def]

def Reads (d : SymDim) (r : SliceRange) : Prop :=
  d = .ofSize r.len ∧ r.len < sizeLimit ∧
    ∀ i < r.len, (r.position i : Outcome OpError Nat).NoFault

def AsksFor (rank : Nat) (c : Cut) (entry : Int64 × Int64 × Int64 × Int64) : Prop :=
  Axis.resolve rank entry.1 = .ok c.dim ∧ c.start = some entry.2.1 ∧ c.stop = some entry.2.2.1 ∧
    c.step = some entry.2.2.2

theorem reads_full {n : Nat} (h : n < countLimit) : Reads (.ofSize n) (.full n) :=
  ⟨rfl, h.trans (by decide), fun _ hi => SliceRange.noFault_position_full hi (h.trans (by decide))⟩

theorem reads_of_resolve {size : Nat} (hsize : size < countLimit) {start stop step : Int64}
    {r : SliceRange} (h : SliceRange.resolve (intOfSize size) start stop step = .ok r) :
    Reads (.ofSize r.len) r := by
  have hnonneg : 0 ≤ (intOfSize size).toInt := by
    rw [toInt_intOfSize (hsize.trans (by decide))]
    exact Int.natCast_nonneg _
  refine ⟨rfl, ?_, fun i hi => SliceRange.noFault_position hnonneg h hi⟩
  obtain ⟨_, -, h⟩ := bind_eq_ok.mp h
  obtain ⟨_, -, h⟩ := bind_eq_ok.mp h
  obtain ⟨_, -, h⟩ := bind_eq_ok.mp h
  obtain ⟨_, -, h⟩ := bind_eq_ok.mp h
  obtain ⟨n, -, h⟩ := bind_eq_ok.mp h
  cases h
  exact sizeOfInt_lt n

theorem ranges_of_cutDims {shape : Shape} {R : SymDim → SliceRange → Prop}
    (hcut : ∀ n ∈ shape, ∀ {start stop step : Int64} {r : SliceRange},
      SliceRange.resolve (intOfSize n) start stop step = .ok r → R (.ofSize r.len) r)
    {cuts : List Cut} {entries : List (Int64 × Int64 × Int64 × Int64)}
    (hentries : List.Forall₂ (AsksFor shape.length) cuts entries) {ds es : List SymDim}
    {rs : List SliceRange} (hrs : List.Forall₂ R ds rs)
    (h : cuts.foldlM (fun out c => do
      return out.set c.dim
        (← ((shape.map SymDim.ofSize).getD c.dim .unknown).slice c.start c.stop c.step)) ds =
      (.ok es : Outcome RuleError (List SymDim))) :
    ∃ rs', (entries.foldlM (fun ranges (axis, start, stop, step) => do
        let dim ← (Axis.resolve shape.length axis).mapError OpError.ofRule
        let size := intOfSize (shape.getD dim 0)
        return ranges.set dim
          (← (SliceRange.resolve size start stop step).mapError OpError.ofRule)) rs :
        Outcome OpError _) = .ok rs' ∧ List.Forall₂ R es rs' := by
  induction hentries generalizing ds rs with
  | nil =>
    cases h
    exact ⟨rs, rfl, hrs⟩
  | @cons c entry cuts entries hasks _ ih =>
    obtain ⟨axis, start, stop, step⟩ := entry
    obtain ⟨hdim, hstart, hstop, hstep⟩ := hasks
    rw [List.foldlM_cons] at h
    obtain ⟨next, hnext, h⟩ := bind_eq_ok.mp h
    obtain ⟨d, hd, hnext⟩ := bind_eq_ok.mp hnext
    cases hnext
    have hlt := Axis.resolve_lt hdim
    have hsize : (shape.map SymDim.ofSize).getD c.dim .unknown = .ofSize (shape.getD c.dim 0) := by
      simp [List.getD_eq_getElem?_getD, hlt]
    rw [hsize, hstart, hstop, hstep] at hd
    obtain ⟨_, -, hd⟩ := bind_eq_ok.mp hd
    obtain ⟨r, hr, hd⟩ := bind_eq_ok.mp hd
    cases hd
    have hmem : shape.getD c.dim 0 ∈ shape := by
      rw [List.getD_eq_getElem?_getD, List.getElem?_eq_getElem hlt]
      exact List.getElem_mem hlt
    obtain ⟨rs', hrs', hall⟩ := ih (Related.set hrs (hcut _ hmem hr) c.dim) h
    refine ⟨rs', ?_, hall⟩
    rw [List.foldlM_cons]
    dsimp only at hdim hr ⊢
    rw [hdim]
    dsimp only [Outcome.mapError, ok_bind]
    rw [hr]
    exact hrs'

theorem optionalParameter_vector (hi : Operator.slice.valueInputs.contains i = true)
    {o : Option (Option (List (Option Int64)))}
    (h : optionalParameter (Inputs.find? (inputs.zipIdx.map Operator.slice.describeInput) i) =
      .ok o) :
    ∃ p : Option (List Int64), inputs.findInts? i = .ok p ∧ o = p.map fun ns =>
      some (ns.map some) := by
  rw [Operator.find?_told] at h
  cases hv : Inputs.find? inputs i with
  | none =>
    rw [hv] at h
    cases h
    exact ⟨none, by rw [ValueInputs.findInts?, hv], rfl⟩
  | some v =>
    rw [hv] at h
    obtain ⟨l, hl, h⟩ := bind_eq_ok.mp h
    cases h
    obtain ⟨t, rfl, hrank, rfl⟩ := parameter_vector hi hl
    exact ⟨some t.data, ValueInputs.findInts?_vector hv hrank, rfl⟩

theorem demandInts_vector (hi : Operator.slice.valueInputs.contains i = true) {t : SymTensor}
    (ht : SymInputs.demand (inputs.zipIdx.map Operator.slice.describeInput) i = .ok t)
    {l : Option (List (Option Int64))} (h : parameter t = .ok l) :
    ∃ ns, inputs.demandInts i = .ok ns ∧ l = some (ns.map some) := by
  rw [SymInputs.demand_eq_ok, Operator.find?_told] at ht
  obtain ⟨v, hv, rfl⟩ := Option.map_eq_some_iff.mp ht
  obtain ⟨t, rfl, hrank, rfl⟩ := parameter_vector hi h
  refine ⟨t.data, ?_, rfl⟩
  rw [ValueInputs.demandInts, ValueInputs.findInts?_vector hv hrank]
  rfl

theorem slicedDims_resolve {rank count : Nat} (hrank : rank < intLimit)
    {p : Option (List Int64)} {o : Option (List Nat)}
    (h : slicedDims rank count (p.map fun ns => some (ns.map some)) = .ok o) :
    ∃ dims, o = some dims ∧ (p.getD ((List.range count).map intOfSize)).length = count ∧
      ((∀ d ∈ dims, d < rank) → List.Forall₂ (fun d axis => Axis.resolve rank axis = .ok d) dims
        (p.getD ((List.range count).map intOfSize))) := by
  cases p with
  | none =>
    cases h
    refine ⟨List.range count, rfl, by simp, fun hlt => ?_⟩
    rw [Option.getD_none, List.forall₂_map_right_iff, List.forall₂_same]
    exact fun d hd => Axis.resolve_intOfSize (hlt d hd) hrank
  | some ns =>
    have hknown : (ns.map some).mapM id = some ns := by
      rw [List.mapM_map]
      exact Option.mapM_eq_some.mpr (List.forall₂_same.mpr fun _ _ => rfl)
    simp only [slicedDims, Option.map_some, hknown] at h
    obtain ⟨_, hcount, h⟩ := bind_eq_ok.mp h
    obtain ⟨_, -, h⟩ := bind_eq_ok.mp h
    obtain ⟨dims, hdims, h⟩ := bind_eq_ok.mp h
    cases h
    exact ⟨dims, rfl, not_not.mp (refuseIf_eq_ok.mp hcount), fun _ => (mapM_eq_ok.mp hdims).flip⟩

theorem slicedSteps_eq {count : Nat} {p : Option (List Int64)} {l : List (Option Int64)}
    (h : slicedSteps count (p.map fun ns => some (ns.map some)) = .ok l) :
    (p.getD (List.replicate count 1)).length = count ∧
      l = (p.getD (List.replicate count 1)).map some := by
  cases p with
  | none =>
    cases h
    exact ⟨List.length_replicate, List.map_replicate.symm⟩
  | some ns =>
    simp only [slicedSteps, Option.map_some] at h
    split_ifs at h with hcount
    cases h
    exact ⟨by rwa [List.length_map] at hcount, rfl⟩

/-- The cuts of the rule ask for what the kernel lists for the same axes. -/
theorem asksFor_zipCuts {rank : Nat} {dims : List Nat} {axes starts stops steps : List Int64}
    (h : List.Forall₂ (fun d axis => Axis.resolve rank axis = .ok d) dims axes) :
    List.Forall₂ (AsksFor rank) (zipCuts dims (starts.map some) (stops.map some) (steps.map some))
      (axes.zip (starts.zip (stops.zip steps))) := by
  have hknown : ∀ ns : List Int64, List.Forall₂ (fun o n => o = some n) (ns.map some) ns :=
    fun ns => List.forall₂_map_left_iff.mpr (List.forall₂_same.mpr fun _ _ => rfl)
  rw [zipCuts, List.forall₂_map_left_iff]
  exact (Related.zip h (Related.zip (hknown _) (Related.zip (hknown _) (hknown _)))).imp
    fun _ _ hentry => ⟨hentry.1, hentry.2.1, hentry.2.2.1, hentry.2.2.2⟩

/-- Where the rule gives a shape, the kernel finds a range for each of its dimensions. -/
theorem exists_ranges {R : SymDim → SliceRange → Prop} (hx : Inputs.find? inputs 0 = some x)
    (hrank : x.shape.length < intLimit) (hfull : ∀ n ∈ x.shape, R (.ofSize n) (.full n))
    (hcut : ∀ n ∈ x.shape, ∀ {start stop step : Int64} {r : SliceRange},
      SliceRange.resolve (intOfSize n) start stop step = .ok r → R (.ofSize r.len) r)
    {ys : List SymTensor} (h : infer (inputs.zipIdx.map Operator.slice.describeInput) = .ok ys) :
    ∃ rs y es, ranges x.shape inputs = .ok rs ∧ ys = [y] ∧ y.dtype = x.dtype ∧
      y.shape = .ranked es ∧ List.Forall₂ R es rs := by
  simp only [infer_eq, Operator.demand_told _ hx, ok_bind] at h
  obtain ⟨t, ht, h⟩ := bind_eq_ok.mp h
  obtain ⟨starts, hstarts, h⟩ := bind_eq_ok.mp h
  obtain ⟨u, hu, h⟩ := bind_eq_ok.mp h
  obtain ⟨stops, hstops, h⟩ := bind_eq_ok.mp h
  obtain ⟨axes, haxes, h⟩ := bind_eq_ok.mp h
  obtain ⟨steps, hsteps, h⟩ := bind_eq_ok.mp h
  obtain ⟨starts, hstarts', rfl⟩ := demandInts_vector rfl ht hstarts
  obtain ⟨stops, hstops', rfl⟩ := demandInts_vector rfl hu hstops
  obtain ⟨axes, haxes', rfl⟩ := optionalParameter_vector rfl haxes
  obtain ⟨steps, hsteps', rfl⟩ := optionalParameter_vector rfl hsteps
  simp only [result, Operator.shape_told, SymShape.ofShape, List.length_map] at h
  obtain ⟨_, hlengths, h⟩ := bind_eq_ok.mp h
  obtain ⟨dims, hdims, h⟩ := bind_eq_ok.mp h
  obtain ⟨dims, rfl, hcount, hresolve⟩ := slicedDims_resolve hrank hdims
  obtain ⟨_, hinside, h⟩ := bind_eq_ok.mp h
  obtain ⟨l, hl, h⟩ := bind_eq_ok.mp h
  obtain ⟨es, hes, h⟩ := bind_eq_ok.mp h
  obtain ⟨y, hy, h⟩ := bind_eq_ok.mp h
  cases h
  rw [List.length_map] at hl
  obtain ⟨hcount', rfl⟩ := slicedSteps_eq hl
  have hinside := refuseIf_eq_ok.mp hinside
  have hlt : ∀ d ∈ dims, d < x.shape.length := by simpa using hinside
  have hall : List.Forall₂ R (x.shape.map .ofSize) (x.shape.map .full) := by
    rw [List.forall₂_map_left_iff, List.forall₂_map_right_iff, List.forall₂_same]
    exact hfull
  obtain ⟨rs, hrs, hreads⟩ := ranges_of_cutDims hcut (asksFor_zipCuts (hresolve hlt)) hall hes
  refine ⟨rs, y, es, ?_, rfl, ?_, ?_, hreads⟩
  · have hequal : ¬(stops.length ≠ starts.length ∨
        (axes.getD ((List.range starts.length).map intOfSize)).length ≠ starts.length ∨
          (steps.getD (List.replicate starts.length 1)).length ≠ starts.length) := by
      have := not_not.mp (refuseIf_eq_ok.mp hlengths)
      rw [hcount, hcount', this]
      simp
    rw [ranges, hstarts', ok_bind, hstops', ok_bind, haxes', ok_bind, hsteps', ok_bind]
    exact bind_eq_ok.mpr ⟨(), refuseIf_neg hequal, hrs⟩
  · obtain ⟨_, rfl | rfl⟩ := cutElements_ok hy <;> exact Operator.dtype_told _ _ _
  · obtain ⟨_, rfl | rfl⟩ := cutElements_ok hy <;> rfl

theorem ranges_of_accepts (h : Operator.slice.Accepts inputs [out])
    (hx : Inputs.find? inputs 0 = some x) : ∃ rs, ranges x.shape inputs = .ok rs ∧
      List.Forall₂ Reads (out.shape.map .ofSize) rs := by
  have hfits := h.fits_input hx
  obtain ⟨w, hw, -, hshape⟩ := h.infer_single rfl
  obtain ⟨rs, y, es, hrs, hy, -, hes, hreads⟩ := exists_ranges hx (hfits.rank_lt.trans (by decide))
    (fun n hn => reads_full (hfits.size_lt hn)) (fun n hn => reads_of_resolve (hfits.size_lt hn)) hw
  cases hy
  obtain rfl : es = out.shape.map .ofSize := SymShape.ranked.inj (hes.symm.trans hshape)
  exact ⟨rs, hrs, hreads⟩

theorem shape_of_reads {shape : Shape} (hshape : ∀ n ∈ shape, n < sizeLimit) {rs : List SliceRange}
    (h : List.Forall₂ Reads (shape.map .ofSize) rs) : shape = rs.map (·.len) := by
  have hlens : ∀ n ∈ rs.map (·.len), n < sizeLimit := by
    intro n hn
    obtain ⟨r, hr, rfl⟩ := List.mem_map.mp hn
    obtain ⟨_, -, hread⟩ := Related.of_mem_right h hr
    exact hread.2.1
  refine SymShape.ofShape_injective hshape hlens (congrArg SymShape.ranked ?_)
  rw [List.map_map, ← List.forall₂_eq_eq_eq, List.forall₂_map_right_iff]
  exact h.imp fun _ _ hread => hread.1

theorem length_ranges {shape : Shape} {rs : List SliceRange} (h : ranges shape inputs = .ok rs) :
    rs.length = shape.length := by
  obtain ⟨_, -, h⟩ := bind_eq_ok.mp h
  obtain ⟨_, -, h⟩ := bind_eq_ok.mp h
  obtain ⟨_, -, h⟩ := bind_eq_ok.mp h
  obtain ⟨_, -, h⟩ := bind_eq_ok.mp h
  obtain ⟨_, -, h⟩ := bind_eq_ok.mp h
  refine foldlM_keeps (P := fun rs => rs.length = shape.length) ?_ (List.length_map _) h
  rintro rs rs' ⟨axis, start, stop, step⟩ - hlen hstep
  obtain ⟨dim, -, hstep⟩ := bind_eq_ok.mp hstep
  obtain ⟨r, -, hstep⟩ := bind_eq_ok.mp hstep
  cases hstep
  rw [List.length_set, hlen]

theorem noFault_source {ds : List SymDim} {rs : List SliceRange} (hreads : List.Forall₂ Reads ds rs)
    {rank : Nat} (hrank : rs.length ≤ rank) {index : Index}
    (hindex : List.Forall₂ (· < ·) index (rs.map (·.len))) :
    (source rs rank index : Outcome OpError Index).NoFault := by
  have hlen := hindex.length_eq
  rw [List.length_map] at hlen
  refine noFault_bind (noFault_demand_iff.mpr (hlen ▸ hrank)) fun _ _ => ?_
  refine noFault_bind (noFault_mapM fun p hp => ?_) fun _ _ => noFault_ok _
  have hlt := List.forall₂_zip (List.forall₂_map_right_iff.mp hindex).flip hp
  obtain ⟨_, -, hread⟩ := Related.of_mem_right hreads (List.of_mem_zip hp).1
  exact hread.2.2 p.2 hlt

theorem safe (h : Operator.slice.Accepts inputs outputs) :
    Safe (Slice.prepare inputs outputs) := by
  obtain ⟨out, rfl⟩ := h.exists_single rfl rfl
  refine safe_demand fun x hx => ?_
  obtain ⟨rs, hrs, hreads⟩ := ranges_of_accepts h hx
  refine safe_bind (noFault_of_eq_ok hrs) fun rs' hrs' => safe_single fun _ hout => safe_ok ?_
  cases hout
  obtain rfl := ok.inj (hrs.symm.trans hrs')
  have hshape := shape_of_reads (fun _ => h.fits_single.lt_sizeLimit) hreads
  refine noFault_sameType fun x' out' _ hx' hout' => ?_
  refine Tensor.noFault_mapIndexedM (hout' ▸ h.fits_single.extent_lt_sizeLimit)
    fun index old hindex => ?_
  rw [hout', hshape] at hindex
  have hrank : rs.length ≤ x'.rank := by rw [Tensor.rank, hx', length_ranges hrs]
  exact noFault_bind (noFault_source hreads hrank hindex) fun _ _ => noFault_ok _

end Slice

end TensorGraph
