import TensorGraph.Proofs.Rules.Slicing
import TensorGraph.Proofs.Safety.Calls
import TensorGraph.Proofs.Safety.Sizes

/-! Padding. The kernel moves each position of the output back by a pad, which stays inside 64 bits
unless the pad takes away too much, and the rule refuses to mirror or to repeat an empty
dimension. -/

namespace TensorGraph

open Outcome Kernel

variable {inputs : ValueInputs} {outputs : List Value} {out x v : Value} {ε : Type}

namespace Pad

variable {mode : PadMode}

theorem noFault_sourcePosition (mode : PadMode) (i : Int64) {size : Nat} (hsize : size < countLimit)
    (hempty : mode ≠ .constant → size ≠ 0) :
    (sourcePosition mode i (intOfSize size) : Outcome ε (Option Int64)).NoFault := by
  have hint : (intOfSize size).toInt = size := toInt_intOfSize (hsize.trans (by decide))
  unfold countLimit at hsize
  unfold sourcePosition
  by_cases hinside : 0 ≤ i ∧ i < intOfSize size
  · rw [if_pos hinside]
    exact noFault_ok _
  rw [if_neg hinside]
  cases mode with
  | constant => exact noFault_ok _
  | edge =>
    have hpos := hempty (by decide)
    refine noFault_bind (noFault_checkInt (by unfold FitsInt; omega)) fun last hlast => ?_
    refine noFault_bind (noFault_bind (noFault_demand_iff.mpr ?_) fun _ _ => noFault_ok _)
      fun _ _ => noFault_ok _
    rw [Int64.le_iff_toInt_le, toInt_of_checkInt hlast, Int64.toInt_zero]
    omega
  | reflect =>
    dsimp only
    by_cases hone : intOfSize size = 1
    · rw [if_pos hone]
      exact noFault_ok _
    rw [if_neg hone]
    have hint' : (intOfSize size).toInt ≠ 1 := fun h => hone (Int64.toInt_inj.mp h)
    refine noFault_bind (noFault_checkInt (by unfold FitsInt; omega)) fun last hlast => ?_
    have hlast := toInt_of_checkInt hlast
    refine noFault_bind (noFault_checkInt (by unfold FitsInt; omega)) fun period hperiod => ?_
    have hperiod := toInt_of_checkInt hperiod
    have hnonneg := Int.emod_nonneg i.toInt (b := period.toInt) (by omega)
    have hlt := Int.emod_lt i.toInt (b := period.toInt) (by omega)
    refine noFault_bind (noFault_checkInt (by unfold FitsInt; omega)) fun k hk => ?_
    have hk := toInt_of_checkInt hk
    split_ifs
    · exact noFault_ok _
    · exact noFault_bind (noFault_checkInt (by unfold FitsInt; omega)) fun _ _ => noFault_ok _

/-- Whether a position of a padded dimension can be moved back into the dimension. -/
def Reaches (mode : PadMode) (size : Nat) (start : Int64) (i : Nat) : Prop :=
  size < countLimit ∧ FitsInt ((intOfSize i).toInt - start.toInt) ∧ (mode ≠ .constant → size ≠ 0)

theorem noFault_source {shape : Shape} {starts stops more : List Int64} {index : Index}
    (hstarts : starts.length = shape.length) (hstops : stops.length = shape.length)
    (h : List.Forall₂ (fun (t : Nat × Int64 × Int64) i => Reaches mode t.1 t.2.1 i)
      (shape.zip (starts.zip stops)) index) :
    (source mode shape (starts ++ more) index : Outcome ε (Option Index)).NoFault := by
  induction shape generalizing starts stops index with
  | nil => exact noFault_ok _
  | cons size shape ih =>
    obtain _ | ⟨start, starts⟩ := starts
    · cases hstarts
    obtain _ | ⟨stop, stops⟩ := stops
    · cases hstops
    obtain _ | ⟨⟨hsize, hfits, hempty⟩, h⟩ := h
    rw [List.length_cons, List.length_cons, Nat.add_right_cancel_iff] at hstarts hstops
    refine noFault_bind (noFault_checkInt hfits) fun moved _ => ?_
    refine noFault_bind (noFault_sourcePosition mode moved hsize hempty) fun o _ => ?_
    cases o with
    | none => exact noFault_ok _
    | some k => exact noFault_bind (ih hstarts hstops h) fun _ _ => noFault_ok _

/-- Whether no pad takes away so many elements that positions could not be moved by it. -/
def TameIn (inputs : ValueInputs) : Prop :=
  match inputs.demandInts 1 with
  | .ok pads => ∀ n ∈ pads, -4611686018427387904 ≤ n.toInt
  | _ => True

instance (inputs : ValueInputs) : Decidable (TameIn inputs) := by
  unfold TameIn
  split
  · exact List.decidableBAll _ _
  · infer_instance

theorem le_of_expand {pads ps : List Int64} {dims : List Nat} {rank : Nat}
    (hpads : ∀ n ∈ pads, -4611686018427387904 ≤ n.toInt)
    (h : (expand pads dims rank 0 : Outcome ε (List Int64)) = .ok ps) :
    ∀ n ∈ ps, -4611686018427387904 ≤ n.toInt := by
  refine foldlM_keeps (P := fun full => ∀ n ∈ full, -4611686018427387904 ≤ n.toInt) ?_ ?_ h
  · rintro full next ⟨dim, i⟩ - hfull hnext
    obtain ⟨start, hstart, hnext⟩ := bind_eq_ok.mp hnext
    obtain ⟨stop, hstop, hnext⟩ := bind_eq_ok.mp hnext
    cases hnext
    intro n hn
    rcases List.mem_or_eq_of_mem_set hn with hn | rfl
    · rcases List.mem_or_eq_of_mem_set hn with hn | rfl
      · exact hfull n hn
      · exact hpads n (List.mem_of_getElem? (ofOption_eq_ok.mp hstart))
    · exact hpads n (List.mem_of_getElem? (ofOption_eq_ok.mp hstop))
  · intro n hn
    rw [List.eq_of_mem_replicate hn]
    decide

theorem TameIn.le {ps : List Int64} {rank : Nat} (h : TameIn inputs)
    (hps : pads rank inputs = .ok ps) : ∀ n ∈ ps, -4611686018427387904 ≤ n.toInt := by
  obtain ⟨p, hp, hps⟩ := bind_eq_ok.mp hps
  simp only [TameIn, hp] at h
  obtain ⟨o, -, hps⟩ := bind_eq_ok.mp hps
  cases o with
  | none =>
    cases hps
    exact h
  | some axes =>
    obtain ⟨dims, -, hps⟩ := bind_eq_ok.mp hps
    exact le_of_expand h hps

/-- A position of a padded dimension can be moved back into it. -/
theorem reaches_of_pad {mode : PadMode} {size n i : Nat} {start stop : Int64}
    (hsize : size < countLimit) (hn : n < countLimit) (hi : i < n)
    (hstart : -4611686018427387904 ≤ start.toInt)
    (h : (SymDim.ofSize size).pad (some start) (some stop) = .ok (.ofSize n))
    (hempty : mode ≠ .constant → size = 0 → start ≤ 0 ∧ stop ≤ 0) : Reaches mode size start i := by
  have hlimit := intLimit_eq
  have hsum := SymDim.toInt_of_pad hsize hn h
  have htop := fitsInt_toInt start
  unfold countLimit at hn
  refine ⟨hsize, ?_, fun hmode hzero => ?_⟩
  · rw [toInt_intOfSize (by omega)]
    unfold FitsInt at htop ⊢
    omega
  · obtain ⟨hnegative, hnegative'⟩ := hempty hmode hzero
    rw [Int64.le_iff_toInt_le, Int64.toInt_zero] at hnegative hnegative'
    omega

theorem reaches_of_outputShape {op : Pad} {shape out : Shape} {pads : List Int64}
    (hshape : shape.Fits) (hout : out.Fits) (hpads : ∀ n ∈ pads, -4611686018427387904 ≤ n.toInt)
    (h : op.outputShape (.ofShape shape) (pads.map some) = .ok (.ofShape out)) {index : Index}
    (hindex : List.Forall₂ (· < ·) index out) : pads.length = shape.length * 2 ∧
      List.Forall₂ (fun (t : Nat × Int64 × Int64) i => Reaches op.mode t.1 t.2.1 i)
        (shape.zip ((pads.take shape.length).zip (pads.drop shape.length))) index := by
  obtain ⟨s, hs, h⟩ := bind_eq_ok.mp h
  obtain ⟨_, hreads, h⟩ := bind_eq_ok.mp h
  cases h
  obtain ⟨_, hlen, hs⟩ := bind_eq_ok.mp hs
  obtain ⟨ds, hds, hs⟩ := bind_eq_ok.mp hs
  have hdims := SymShape.ranked.inj (Outcome.ok.inj hs)
  subst hdims
  have hreads := refuseIf_eq_ok.mp hreads
  have hlen := not_not.mp (refuseIf_eq_ok.mp hlen)
  rw [List.length_map, List.length_map] at hlen
  refine ⟨hlen, ?_⟩
  generalize htriples : shape.zip ((pads.take shape.length).zip (pads.drop shape.length)) = triples
  have hzip : (shape.map SymDim.ofSize).zip
      (((pads.map some).take (shape.map SymDim.ofSize).length).zip
      ((pads.map some).drop (shape.map SymDim.ofSize).length)) =
        triples.map fun t => (SymDim.ofSize t.1, some t.2.1, some t.2.2) := by
    rw [← htriples, List.length_map, ← List.map_take, ← List.map_drop, List.zip_map, List.zip_map]
    rfl
  have hmem : ∀ t ∈ triples, t.1 ∈ shape ∧ t.2.1 ∈ pads := by
    intro t ht
    rw [← htriples] at ht
    have hpair := List.of_mem_zip ht
    exact ⟨hpair.1, List.mem_of_mem_take (List.of_mem_zip hpair.2).1⟩
  have hempty : ∀ t ∈ triples, op.mode ≠ .constant → t.1 = 0 → t.2.1 ≤ 0 ∧ t.2.2 ≤ 0 := by
    intro t ht hmode hzero
    by_contra hpads
    refine hreads (Bool.and_eq_true_iff.mpr ⟨decide_eq_true hmode, ?_⟩)
    refine List.any_eq_true.mpr ⟨(SymDim.ofSize t.1, some t.2.1, some t.2.2), ?_, ?_⟩
    · rw [SymShape.ofShape, SymShape.dims, SymShape.dims?, Option.getD_some, hzip]
      exact List.mem_map_of_mem ht
    · have hsize : SymDim.ofSize 0 = .size 0 := rfl
      rw [hzero, hsize]
      simpa [imp_iff_not_or] using hpads
  rw [hzip, mapM_eq_ok, List.forall₂_map_left_iff, List.forall₂_map_right_iff] at hds
  have hall :=
    (List.forall₂_and_left _ _).mpr ⟨fun t ht => And.intro (hmem t ht) (hempty t ht), hds⟩
  have hsizes := (List.forall₂_and_left _ _).mpr ⟨fun n hn => hout.size_lt hn, hindex.flip⟩
  refine Related.trans hall hsizes ?_
  rintro ⟨size, start, stop⟩ n i ⟨⟨⟨hsize, hstart⟩, hempty⟩, hpad⟩ ⟨hn, hi⟩
  exact reaches_of_pad (hshape.size_lt hsize) hn hi (hpads start hstart) hpad hempty

/-- Pads that are listed for some dimensions are the same for rule and kernel. -/
theorem expand_map_some {pads : List Int64} {dims : List Nat} {rank : Nat}
    {full : List (Option Int64)}
    (h : (expand (pads.map some) dims rank (some 0) : Outcome RuleError _) = .ok full) :
    ∃ ps, (expand pads dims rank 0 : Outcome ε (List Int64)) = .ok ps ∧ full = ps.map some := by
  unfold expand at h ⊢
  rw [← List.map_replicate] at h
  generalize List.replicate (rank * 2) (0 : Int64) = acc at h ⊢
  generalize dims.zipIdx = entries at h ⊢
  induction entries generalizing acc with
  | nil =>
    cases h
    exact ⟨acc, rfl, rfl⟩
  | cons entry entries ih =>
    obtain ⟨dim, i⟩ := entry
    rw [List.foldlM_cons] at h ⊢
    obtain ⟨next, hnext, h⟩ := bind_eq_ok.mp h
    obtain ⟨start, hstart, hnext⟩ := bind_eq_ok.mp hnext
    obtain ⟨stop, hstop, hnext⟩ := bind_eq_ok.mp hnext
    cases hnext
    rw [ofOption_eq_ok, List.getElem?_map, Option.map_eq_some_iff] at hstart hstop
    obtain ⟨a, ha, rfl⟩ := hstart
    obtain ⟨b, hb, rfl⟩ := hstop
    rw [← List.map_set, ← List.map_set] at h
    obtain ⟨ps, hps, hfull⟩ := ih _ h
    refine ⟨ps, ?_, hfull⟩
    dsimp only
    rw [ha, hb]
    exact hps

theorem ints?_told {op : Pad} {t : Tensor Int64} (hrank : t.shape.length ≤ 1) :
    ((Operator.pad op).told 3 (.int t)).ints? = some t.data := Operator.ints?_told rfl hrank

/-- Where the kernel reads axes, the rule resolves the same ones and expands the pads to all
dimensions. -/
theorem exists_expand {op : Pad} {data axes : List Int64} {a : Value} {rank : Nat}
    {full : Option (List (Option Int64))}
    (h : allPads rank (data.map some) (some ((Operator.pad op).told 3 a)) = .ok full)
    (haxes : Inputs.find? inputs 3 = some a) (hread : inputs.findInts? 3 = .ok (some axes)) :
    ∃ dims ps, Axis.resolveAll rank axes = .ok dims ∧
      (expand data dims rank 0 : Outcome OpError (List Int64)) = .ok ps ∧
      full = some (ps.map some) := by
  obtain ⟨t, ht, hrank, rfl⟩ := ValueInputs.vector_of_findInts? hread
  rw [haxes, Option.some.injEq] at ht
  subst ht
  simp only [allPads, ints?_told hrank] at h
  obtain ⟨dims, hdims, h⟩ := bind_eq_ok.mp h
  obtain ⟨_, -, h⟩ := bind_eq_ok.mp h
  obtain ⟨l, hl, h⟩ := bind_eq_ok.mp h
  cases h
  obtain ⟨ps, hps, rfl⟩ := expand_map_some hl
  exact ⟨dims, ps, hdims, hps, rfl⟩

theorem allPads_of_accepts {op : Pad} (h : (Operator.pad op).Accepts inputs [out])
    (hx : Inputs.find? inputs 0 = some x) :
    ∃ (data : List Int64) (full : Option (List (Option Int64))),
      inputs.demandInts 1 = .ok data ∧
        allPads x.rank (data.map some) ((Inputs.find? inputs 3).map ((Operator.pad op).told 3)) =
          .ok full ∧
        ∀ ps : List Int64, full = some (ps.map some) →
          op.outputShape (.ofShape x.shape) (ps.map some) = .ok (.ofShape out.shape) := by
  obtain ⟨w, hw, -, hshape⟩ := h.infer_single rfl
  simp only [Operator.infer, infer_eq, Operator.demand_told _ hx, ok_bind] at hw
  obtain ⟨p, hp, hw⟩ := bind_eq_ok.mp hw
  obtain ⟨_, hdtype, hw⟩ := bind_eq_ok.mp hw
  obtain ⟨_, hrank, hw⟩ := bind_eq_ok.mp hw
  obtain ⟨_, -, hw⟩ := bind_eq_ok.mp hw
  rw [SymInputs.demand_eq_ok, Operator.find?_told] at hp
  obtain ⟨v, hv, rfl⟩ := Option.map_eq_some_iff.mp hp
  obtain ⟨t, rfl⟩ := Operator.int_of_dtype (not_not.mp (refuseIf_eq_ok.mp hdtype))
  rw [Operator.shape_told] at hrank
  have hrank : t.shape.length ≤ 1 := (SymShape.declareRank_ofShape hrank).1.le
  rw [Operator.elements_told rfl hrank, Operator.find?_told] at hw
  have hdemand : inputs.demandInts 1 = .ok t.data := by
    rw [ValueInputs.demandInts, ValueInputs.findInts?_vector hv hrank]
    rfl
  obtain ⟨full, hfull, hw⟩ := bind_eq_ok.mp hw
  have hints : (t.data.map SymElement.int).map (·.int?) = t.data.map some := by
    simp [SymElement.int?, Function.comp_def]
  rw [SymTensor.rank?, Operator.shape_told, SymShape.ofShape, SymShape.rank?_ranked,
    List.length_map, hints] at hfull
  refine ⟨t.data, full, hdemand, hfull, ?_⟩
  rintro ps rfl
  obtain ⟨s, hs, hw⟩ := bind_eq_ok.mp hw
  cases hw
  rw [Operator.shape_told] at hs
  exact hs.trans (congrArg Outcome.ok hshape)

theorem pads_of_accepts {op : Pad} (h : (Operator.pad op).Accepts inputs [out])
    (hx : Inputs.find? inputs 0 = some x) :
    (pads x.rank inputs).NoFault ∧ ∀ ps, pads x.rank inputs = .ok ps →
      op.outputShape (.ofShape x.shape) (ps.map some) = .ok (.ofShape out.shape) := by
  obtain ⟨data, full, hdemand, hfull, hlist⟩ := allPads_of_accepts h hx
  rw [pads, hdemand, ok_bind]
  cases haxes : Inputs.find? inputs 3 with
  | none =>
    rw [haxes] at hfull
    cases hfull
    rw [ValueInputs.findInts?, haxes]
    refine ⟨noFault_ok _, fun ps hps => ?_⟩
    cases hps
    exact hlist _ rfl
  | some a =>
    rw [haxes, Option.map_some] at hfull
    have hread : ∀ o, inputs.findInts? 3 = .ok o → ∃ axes, o = some axes := by
      intro o ho
      rw [ValueInputs.findInts?, haxes] at ho
      obtain ⟨axes, -, ho⟩ := bind_eq_ok.mp ho
      exact ⟨axes, (Outcome.ok.inj ho).symm⟩
    refine ⟨noFault_bind (ValueInputs.noFault_findInts? _ _) fun o ho => ?_, fun ps hps => ?_⟩
    · obtain ⟨axes, rfl⟩ := hread o ho
      obtain ⟨dims, ps, hdims, hps, -⟩ := exists_expand hfull haxes ho
      dsimp only
      rw [hdims]
      exact noFault_of_eq_ok hps
    · obtain ⟨o, ho, hps⟩ := bind_eq_ok.mp hps
      obtain ⟨axes, rfl⟩ := hread o ho
      obtain ⟨dims, ps', hdims, hps', hfull⟩ := exists_expand hfull haxes ho
      dsimp only at hps
      rw [hdims] at hps
      cases hps'.symm.trans hps
      exact hlist _ hfull

theorem safe (op : Pad) (h : (Operator.pad op).Accepts inputs outputs) (htame : TameIn inputs) :
    Safe (op.prepare inputs outputs) := by
  obtain ⟨out, rfl⟩ := h.exists_single rfl rfl
  refine safe_demand fun x hx => ?_
  obtain ⟨hpads, hlist⟩ := pads_of_accepts h hx
  refine safe_bind hpads fun ps hps => safe_single fun _ hout => safe_ok ?_
  cases hout
  refine noFault_sameType fun x' out' _ hx' hout' => ?_
  refine noFault_bind (noFault_element? _) fun value _ => ?_
  refine Tensor.noFault_mapIndexedM (hout' ▸ h.fits_single.extent_lt_sizeLimit)
    fun index old hindex => ?_
  rw [hout'] at hindex
  obtain ⟨hlen, hreaches⟩ := reaches_of_outputShape (h.fits_input hx) h.fits_single
    (htame.le hps) (hlist ps hps) hindex
  refine noFault_bind ?_ fun o _ => ?_
  · rw [hx', ← List.take_append_drop x.shape.length ps]
    refine noFault_source ?_ ?_ hreaches
    · rw [List.length_take]
      omega
    · rw [List.length_drop]
      omega
  · cases o <;> exact noFault_ok _

end Pad

end TensorGraph
