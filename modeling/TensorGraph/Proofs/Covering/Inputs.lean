import TensorGraph.Proofs.Covering.Tensor

/-! What inference knows of the inputs of an operator beside descriptions of the values that a run
gives it. Inputs whose elements settle shapes are described whole in the run. -/

namespace TensorGraph

namespace SymTensor

variable {names : Names} {t u : SymTensor}

theorem FitsWhole.elements (h : FitsWhole names t u) {es : List SymElement}
    (he : t.elements = some es) :
    ∃ cs, u.elements = some cs ∧ List.Forall₂ (SymElement.Covers names) es cs := by
  obtain ⟨hfits, v, rfl, -, hv⟩ := h
  have hrank := hfits.tracked.value_rank_le hv.shape he
  exact ⟨v.elements, by rw [v.elements_toWhole, if_pos hrank], hv.elements es he⟩

theorem FitsWhole.ints? (h : FitsWhole names t u) : Told t.ints? u.ints? := by
  intro ns hns
  obtain ⟨es, he, hes⟩ := Option.bind_eq_some_iff.mp hns
  obtain ⟨cs, hc, hcs⟩ := h.elements he
  rw [SymTensor.ints?, hc, Option.bind_some, Option.mapM_eq_some]
  exact Related.trans hcs.flip (Option.mapM_eq_some.mp hes)
    fun c e n (hec : e.Covers names c) hn => hec.int? n hn

theorem FitsWhole.single? (h : FitsWhole names t u) {e : SymElement} (he : t.single? = some e) :
    ∃ c, u.single? = some c ∧ e.Covers names c := by
  cases hes : t.elements with
  | none => simp [SymTensor.single?, hes] at he
  | some es =>
    obtain ⟨cs, hc, hcs⟩ := h.elements hes
    cases hcs with
    | nil => simp [SymTensor.single?, hes] at he
    | @cons e' c es cs hec hs =>
      cases hs with
      | nil =>
        have hee : e' = e := by simpa [SymTensor.single?, hes] using he
        exact ⟨c, by simp [SymTensor.single?, hc], hee ▸ hec⟩
      | cons _ _ => simp [SymTensor.single?, hes] at he

theorem FitsWhole.singleInt? (h : FitsWhole names t u) : Told t.singleInt? u.singleInt? := by
  intro n hn
  obtain ⟨e, he, hen⟩ := Option.bind_eq_some_iff.mp hn
  obtain ⟨c, hc, hec⟩ := h.single? he
  rw [SymTensor.singleInt?, hc]
  exact hec.int? n hen

/-- A vector of a known number of elements is described with so many. -/
theorem FitsWhole.length (h : FitsWhole names t u) {n : Int64} (hs : t.shape = .ranked [.size n]) :
    ∃ cs, u.elements = some cs ∧ cs.length = sizeOfInt n := by
  obtain ⟨-, v, rfl, hv, hd⟩ := h
  obtain ⟨cs, hcs, hdims⟩ := hs ▸ hd.shape
  rw [SymShape.ofShape, SymShape.ranked.injEq] at hcs
  have hlen : v.shape.length = 1 := by simpa [← hcs] using hdims.length_eq.symm
  obtain ⟨s, hshape⟩ := List.length_eq_one_iff.mp hlen
  have hsize : intOfSize s = n := by
    rw [hshape, List.map_singleton] at hcs
    subst hcs
    cases hdims with
    | cons hdim _ => simpa [SymDim.ofSize] using hdim
  have hrank : v.rank ≤ maxRank := by simp [Value.rank, hlen, maxRank]
  have hword : s < sizeLimit := hv.sizes s (by simp [hshape])
  refine ⟨v.elements, by rw [v.elements_toWhole, if_pos hrank], ?_⟩
  rw [v.length_elements, hshape, ← hsize, sizeOfInt_intOfSize hword]
  simp [Shape.volume]

theorem FitsWhole.ints_of_vector (h : FitsWhole names t u) (hd : u.dtype = .int)
    {s : SymShape} (hs : u.shape.declareRank 1 = .ok s) :
    ∃ ns, u.ints? = some ns ∧ ∀ n, (t.shape.dim 0).value? = some n → ns.length = sizeOfInt n := by
  obtain ⟨-, v, rfl, hv, hdesc⟩ := h
  rw [Value.shape_toWhole, SymShape.ofShape, SymShape.declareRank, List.length_map] at hs
  have hlen : v.shape.length = 1 := by
    by_contra hlen
    simp [hlen] at hs
  obtain ⟨size, hshape⟩ := List.length_eq_one_iff.mp hlen
  have hrank : v.rank ≤ maxRank := by simp [Value.rank, hlen, maxRank]
  have hword : size < sizeLimit := hv.sizes size (by simp [hshape])
  have hcount : v.elements.length = size := by simp [v.length_elements, hshape, Shape.volume]
  cases v with
  | float v => simp [Value.dtype] at hd
  | int v =>
    refine ⟨v.data, ?_, fun n hn => ?_⟩
    · rw [SymTensor.ints?, Value.elements_toWhole, if_pos hrank, Option.bind_some,
        Option.mapM_eq_some, Value.elements, List.forall₂_map_left_iff]
      exact List.forall₂_same.mpr fun _ _ => rfl
    · have hdim := (hdesc.shape.dim 0).value? n hn
      rw [SymShape.ofShape, hshape] at hdim
      have hsize : intOfSize size = n := by
        simpa [SymShape.dim, SymShape.dims, SymShape.dims?, SymDim.ofSize, SymDim.value?] using hdim
      rw [← hsize, sizeOfInt_intOfSize hword, ← hcount]
      simp [Value.elements]

theorem FitsWhole.toSizes {ε ε' : Type} (h : FitsWhole names t u) :
    Outcome.Follows (SymShape.Covers names) (t.toSizes : Outcome ε SymShape)
      (u.toSizes : Outcome ε' SymShape) := by
  cases he : t.elements with
  | some es =>
    obtain ⟨cs, hc, hcs⟩ := h.elements he
    simp only [SymTensor.toSizes, he, hc]
    refine Outcome.follows_bind_left (Outcome.demand_ne_error ·) fun _ _ => ?_
    refine Outcome.follows_bind_right fun _ _ => ?_
    exact Outcome.follows_ok (SymShape.ranked_covers_ranked.mpr
      (Related.map hcs fun _ _ hec => hec.toDim))
  | none =>
    cases hs : t.shape with
    | unknown => simpa only [SymTensor.toSizes, he, hs] using SymShape.follows_unknown _
    | ranked ds =>
      match ds, hs with
      | [], hs | .unknown :: _, hs | .param _ :: _, hs | .size _ :: _ :: _, hs =>
        simpa only [SymTensor.toSizes, he, hs] using SymShape.follows_unknown _
      | [.size n], hs =>
        obtain ⟨cs, hc, hlen⟩ := h.length hs
        simp only [SymTensor.toSizes, he, hs, hc, ← hlen]
        refine Outcome.follows_bind_right fun _ _ => ?_
        by_cases hn : n ≥ 0
        · rw [if_pos hn]
          have hcover := @SymShape.ofRank_covers names (cs.map (·.toDim))
          rw [List.length_map] at hcover
          exact SymShape.follows_ofLargeRank _ hcover fun c hc => by simpa [eq_comm] using hc
        · rw [if_neg hn]
          exact SymShape.follows_unknown _

end SymTensor

namespace SymInputs

variable {names : Names} {whole : List Nat} {sym conc : SymInputs}

/-- Whether descriptions of inputs fit those of the inputs of a run, where some are described
whole. -/
structure Fit (names : Names) (whole : List Nat) (sym conc : SymInputs) : Prop where
  each : List.Forall₂ (Option.Rel (SymTensor.Fits names)) sym conc
  whole : ∀ i ∈ whole, Option.Rel (SymTensor.FitsWhole names) (Inputs.find? sym i)
    (Inputs.find? conc i)
  rank : ∀ u ∈ Inputs.given conc, ∀ n, u.rank? = some n → n < sizeLimit

theorem Fit.find? (h : Fit names whole sym conc) (i : Nat) :
    Option.Rel (SymTensor.Fits names) (Inputs.find? sym i) (Inputs.find? conc i) := by
  have hi := Related.getElem? h.each i
  unfold Inputs.find?
  cases hs : sym[i]? with
  | none => cases hc : conc[i]? <;> simp_all
  | some t => cases hc : conc[i]? <;> simp_all

theorem Fit.given (h : Fit names whole sym conc) :
    List.Forall₂ (SymTensor.Fits names) (Inputs.given sym) (Inputs.given conc) :=
  Related.filterMap h.each fun _ _ hab => hab

theorem Fit.given_types (h : Fit names whole sym conc) {dtype dtype' : DataType}
    (hd : dtype = dtype') : (Inputs.given sym).any (·.dtype ≠ dtype) = true →
      (Inputs.given conc).any (·.dtype ≠ dtype') = true :=
  Related.any h.given fun a b hab => by rw [hd, hab.dtype]; exact id

theorem Fit.find?_type (h : Fit names whole sym conc) (i : Nat) {dtype dtype' : DataType}
    (hd : dtype = dtype') : (Inputs.find? sym i).any (·.dtype ≠ dtype) = true →
      (Inputs.find? conc i).any (·.dtype ≠ dtype') = true := by
  have hi := h.find? i
  cases hs : Inputs.find? sym i with
  | none => simp
  | some a =>
    cases hc : Inputs.find? conc i with
    | none => simp [hs, hc] at hi
    | some b =>
      rw [hs, hc, Option.rel_some_some] at hi
      rw [Option.any_some, Option.any_some, hd, hi.dtype]
      exact id

theorem Fit.demand (h : Fit names whole sym conc) (i : Nat) :
    Outcome.Follows (SymTensor.Fits names) (sym.demand i) (conc.demand i) :=
  Outcome.follows_orRefuse (h.find? i)

theorem Fit.demandWhole (h : Fit names whole sym conc) {i : Nat} (hi : i ∈ whole) :
    Outcome.Follows (SymTensor.FitsWhole names) (sym.demand i) (conc.demand i) :=
  Outcome.follows_orRefuse (h.whole i hi)

theorem demand_eq_ok {inputs : SymInputs} {i : Nat} {t : SymTensor} :
    inputs.demand i = .ok t ↔ Inputs.find? inputs i = some t := by
  cases h : Inputs.find? inputs i <;> simp [demand, h]

theorem find?_map {α β : Type} (inputs : Inputs α) (f : α → β) (i : Nat) :
    Inputs.find? (inputs.map (Option.map f)) i = (Inputs.find? inputs i).map f := by
  rw [Inputs.find?, Inputs.find?, List.getElem?_map]
  cases inputs[i]? <;> rfl

theorem mem_given_of_find? {α : Type} {inputs : Inputs α} {i : Nat} {a : α}
    (h : Inputs.find? inputs i = some a) : a ∈ Inputs.given inputs := by
  have hmem : some a ∈ inputs := List.mem_of_getElem? (Option.join_eq_some_iff.mp h)
  exact List.mem_filterMap.mpr ⟨some a, hmem, rfl⟩

/-- An input of which inference knows something beside the value that the run gives. -/
theorem Fit.demandShapeOnly {inputs : ValueInputs}
    (h : Fit names whole sym (inputs.map (Option.map Value.toShapeOnly))) (i : Nat) :
    Outcome.Follows (fun t v => SymTensor.Fits names t v.toShapeOnly) (sym.demand i)
      (inputs.demand i) := by
  refine Outcome.follows_orRefuse ?_
  have hi := h.find? i
  rw [find?_map] at hi
  cases hs : Inputs.find? sym i <;> cases hv : Inputs.find? inputs i <;> simp_all

theorem follows_single {t u : SymTensor} {ε ε' : Type} (h : SymTensor.Fits names t u) :
    Outcome.Follows (List.Forall₂ (SymTensor.Fits names)) (.ok [t] : Outcome ε (List SymTensor))
      (.ok [u] : Outcome ε' (List SymTensor)) :=
  Outcome.follows_ok (.cons h .nil)

/-- A result of which only the type is known follows any single one of that type. -/
theorem follows_unranked {dtype : DataType} {ε ε' : Type} {y : Outcome ε' (List SymTensor)}
    (hy : ∀ ws, y = .ok ws → ∃ w, ws = [w] ∧ w.dtype = dtype) :
    Outcome.Follows (List.Forall₂ (SymTensor.Fits names))
      (.ok [.unranked dtype] : Outcome ε (List SymTensor)) y := by
  intro ws hws
  obtain ⟨w, rfl, hw⟩ := hy ws hws
  exact .inr ⟨_, rfl, .cons (SymTensor.fits_unranked hw.symm) .nil⟩

end SymInputs

end TensorGraph
