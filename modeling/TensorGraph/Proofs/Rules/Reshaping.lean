import TensorGraph.Proofs.Axes
import TensorGraph.Proofs.Covering.Reshape
import TensorGraph.Proofs.Rules.Elementwise
import TensorGraph.Rearrange.Transposition

/-! The shape rules of operators that change the shape and leave the elements in order, or repeat
them. -/

namespace TensorGraph

open SymTensor SymInputs

variable {names : Names} {whole : List Nat} {sym conc : SymInputs}

theorem SymTensor.Fits.demandIntVector {t u : SymTensor} (h : Fits names t u) :
    Outcome.Follows (fun _ _ => True) t.demandIntVector u.demandIntVector := by
  rw [SymTensor.demandIntVector, SymTensor.demandIntVector, h.dtype]
  refine Outcome.follows_bind_same fun _ _ => ?_
  exact (h.shape.declareRank 1).bind fun _ _ _ => Outcome.follows_ok trivial

theorem SymTensor.demandIntVector_eq_ok {t : SymTensor} {x : Unit}
    (h : t.demandIntVector = .ok x) : t.dtype = .int ∧ ∃ s, t.shape.declareRank 1 = .ok s := by
  simp only [demandIntVector, Outcome.bind_eq_ok, Outcome.refuseIf_eq_ok, ne_eq, not_not] at h
  obtain ⟨-, hd, s, hs, -⟩ := h
  exact ⟨hd, s, hs⟩

theorem Reshaping.inferIdentity_follows (h : Fit names whole sym conc) :
    Outcome.Follows (List.Forall₂ (Fits names)) (Reshaping.inferIdentity sym)
      (Reshaping.inferIdentity conc) :=
  (h.demand 0).bind fun _ _ hx => follows_single hx

theorem SymTensor.toSizes_ranked {t : SymTensor} {wanted : List SymDim} {ε : Type}
    (h : (t.toSizes : Outcome ε SymShape) = .ok (.ranked wanted)) :
    (∃ es, t.elements = some es ∧ wanted = es.map (·.toDim)) ∨ ∀ d ∈ wanted, d = .unknown := by
  cases he : t.elements with
  | some es =>
    simp only [toSizes, he, Outcome.bind_eq_ok, Outcome.pure_eq, Outcome.ok.injEq,
      SymShape.ranked.injEq] at h
    obtain ⟨-, -, hwanted⟩ := h
    exact .inl ⟨es, rfl, hwanted.symm⟩
  | none =>
    right
    simp only [toSizes, he] at h
    split at h
    · split_ifs at h
      · simp only [SymShape.ofLargeRank, Outcome.bind_eq_ok, Outcome.pure_eq, Outcome.ok.injEq,
          SymShape.ofRank, SymShape.ranked.injEq] at h
        obtain ⟨-, -, rfl⟩ := h
        exact fun d hd => List.eq_of_mem_replicate hd
      · cases h
    · cases h

theorem SymShape.targetKept_of_unknown {input : SymShape} {allowZero : Bool}
    {wanted : List SymDim} (h : ∀ d ∈ wanted, d = .unknown) :
    TargetKept names input allowZero 0 wanted := by
  intro j p n hj
  cases h _ (List.mem_of_getElem? hj)

theorem Reshape.infer_follows (op : Reshape) (h : Fit names whole sym conc) (hwhole : 1 ∈ whole)
    (hkept : ∀ t es u, Inputs.find? sym 1 = some t → t.elements = some es →
      Inputs.find? conc 0 = some u →
        SymShape.TargetKept names u.shape op.allowZero 0 (es.map (·.toDim))) :
    Outcome.Follows (List.Forall₂ (Fits names)) (op.infer sym) (op.infer conc) := by
  refine (h.demand 0).bind_ok fun x u hx hsym hconc => ?_
  refine (h.demandWhole hwhole).bind_ok fun t s ht hsym' _ => ?_
  refine ht.1.demandIntVector.bind fun _ _ _ => ?_
  refine (ht.toSizes (ε := RuleError)).bind_ok fun target target' htarget hlisted _ => ?_
  refine (hx.shape.reshape htarget ?_).bind fun s s' hs => follows_single ?_
  · rintro wanted rfl
    rcases toSizes_ranked hlisted with ⟨es, he, rfl⟩ | hunknown
    · exact hkept t es u (demand_eq_ok.mp hsym') he (demand_eq_ok.mp hconc)
    · exact SymShape.targetKept_of_unknown hunknown
  · exact hx.reshaped (by simp) (by simpa using hs)

theorem Flatten.infer_follows (op : Flatten) (h : Fit names whole sym conc) :
    Outcome.Follows (List.Forall₂ (Fits names)) (op.infer sym) (op.infer conc) := by
  refine (h.demand 0).bind fun x u hx => ?_
  have hs := hx.shape
  generalize x.shape = s at hs ⊢
  generalize u.shape = c at hs ⊢
  cases s with
  | unknown =>
    cases c with
    | unknown => exact follows_single (fits_ofShape hx.dtype (SymShape.ofRank_covers_ofRank 2))
    | ranked cs =>
      simp only [Outcome.ite_bind]
      refine Outcome.follows_bind_right fun axis _ => Outcome.follows_bind_right fun _ _ => ?_
      have hrank := @SymShape.ofRank_covers names
        [SymDim.product (cs.take (sizeOfInt axis)), SymDim.product (cs.drop (sizeOfInt axis))]
      exact follows_single (ofShape_fits (by simpa using hx.dtype) (by simpa using hrank))
  | ranked ds =>
    obtain ⟨cs, rfl, hd⟩ := hs
    simp only [hd.length_eq, Outcome.ite_bind]
    refine Outcome.follows_bind_same fun axis _ => Outcome.follows_bind_same fun _ _ => ?_
    refine follows_single (hx.reshaped (by simp) ?_)
    rw [shape_reshaped, SymShape.ranked_covers_ranked]
    exact .cons (SymDim.Covers.product (List.forall₂_take _ hd))
      (.cons (SymDim.Covers.product (List.forall₂_drop _ hd)) .nil)

theorem Squeeze.removeOnes_covers {ds cs : List SymDim}
    (h : List.Forall₂ (SymDim.Covers names) ds cs) :
    (removeOnes ds).Covers names (removeOnes cs) := by
  by_cases hall : ds.all (·.isSize) = true
  · have hsame : ds = cs := by
      induction h with
      | nil => rfl
      | @cons d c ds cs hdc _ ih =>
        simp only [List.all_cons, Bool.and_eq_true] at hall
        cases d with
        | size n => rw [SymDim.covers_size.mp hdc, ih hall.2]
        | unknown | param _ => simp [SymDim.isSize, SymDim.value?] at hall
    subst hsame
    simp only [removeOnes, hall, if_true, SymShape.ranked_covers_ranked]
    refine List.forall₂_same.mpr fun d hd => ?_
    have hsize := List.all_eq_true.mp hall d (List.mem_of_mem_filter hd)
    cases d with
    | size n => rfl
    | unknown | param _ => simp [SymDim.isSize, SymDim.value?] at hsize
  · simp [removeOnes, hall]

def Squeeze.left (dims : List Nat) (ds : List SymDim) : List SymDim :=
  ds.zipIdx.filterMap fun (d, k) => if dims.contains k then none else some d

theorem Squeeze.left_covers {ds cs : List SymDim}
    (h : List.Forall₂ (SymDim.Covers names) ds cs) (dims : List Nat) :
    List.Forall₂ (SymDim.Covers names) (left dims ds) (left dims cs) := by
  refine Related.filterMap (Related.zipIdx h 0) ?_
  rintro ⟨d, i⟩ ⟨c, j⟩ ⟨hd, rfl⟩
  by_cases hi : dims.contains i = true
  · simpa only [hi, if_true] using .none
  · simpa only [hi] using .some hd

theorem Squeeze.length_left {dims : List Nat} (ds : List SymDim) (hnodup : dims.Nodup)
    (hlt : ∀ k ∈ dims, k < ds.length) : (left dims ds).length = ds.length - dims.length := by
  have hpositions : ∀ k, ((ds.zipIdx k).filterMap fun (d, i) =>
      if dims.contains i then none else some d).length =
        ((List.range' k ds.length).filter fun i => !dims.contains i).length := by
    intro k
    clear hlt
    induction ds generalizing k with
    | nil => rfl
    | cons d ds ih =>
      have hrest := ih (k + 1)
      by_cases hk : k ∈ dims <;> simpa [List.range'_succ, hk] using hrest
  rw [left, hpositions 0, ← List.range_eq_range', length_filter_range hnodup hlt]

theorem Squeeze.remove_follows {ds cs : List SymDim}
    (h : List.Forall₂ (SymDim.Covers names) ds cs) (axes : List Int64) :
    Outcome.Follows (SymShape.Covers names) (remove ds axes) (remove cs axes) := by
  rw [remove, remove, h.length_eq]
  refine Outcome.follows_bind_same fun dims _ => ?_
  have hsize : (dims.any fun k => (ds.getD k .unknown).value?.any (· ≠ 1)) = true →
      (dims.any fun k => (cs.getD k .unknown).value?.any (· ≠ 1)) = true := by
    simp only [List.any_eq_true]
    rintro ⟨k, hk, hne⟩
    exact ⟨k, hk, (Related.getD h (SymDim.covers_unknown _) k).value?.any hne⟩
  refine (Outcome.follows_refuseIf hsize).bind fun _ _ _ => ?_
  exact Outcome.follows_ok (SymShape.ranked_covers_ranked.mpr (left_covers h dims))

theorem Squeeze.outputShape_follows {ds cs : List SymDim}
    (h : List.Forall₂ (SymDim.Covers names) ds cs) {axes axes' : Option SymTensor}
    (haxes : Option.Rel (FitsWhole names) axes axes') :
    Outcome.Follows (SymShape.Covers names) (outputShape ds axes) (outputShape cs axes') := by
  cases haxes with
  | none => exact Outcome.follows_ok (removeOnes_covers h)
  | @some t u ht =>
    refine ht.1.demandIntVector.bind_ok fun _ _ _ _ hvector => ?_
    cases hns : t.ints? with
    | some ns =>
      rw [ht.ints? ns hns]
      exact remove_follows h ns
    | none =>
      obtain ⟨hd, s, hs⟩ := demandIntVector_eq_ok hvector
      obtain ⟨ms, hms, hlen⟩ := ht.ints_of_vector hd hs
      rw [hms]
      cases hn : (t.shape.dim 0).value? with
      | none =>
        simp only [removeSome, hn]
        exact SymShape.follows_unknown _
      | some n =>
        by_cases hle : sizeOfInt n ≤ ds.length
        · simp only [removeSome, hn, hle, if_true]
          refine Outcome.follows_bind_right fun dims hdims => ?_
          refine Outcome.follows_bind_right fun _ _ => Outcome.follows_ok ?_
          obtain ⟨hcount, hnodup, hlt⟩ := Axis.resolveAll_ok hdims
          have hleft : (left dims cs).length = ds.length - sizeOfInt n := by
            rw [length_left cs hnodup hlt, hcount, hlen n hn, h.length_eq]
          exact hleft ▸ SymShape.ofRank_covers (left dims cs)
        · simp only [removeSome, hn, hle, if_false]
          exact SymShape.follows_unknown _

theorem Squeeze.infer_follows (h : Fit names whole sym conc) (hwhole : 1 ∈ whole) :
    Outcome.Follows (List.Forall₂ (Fits names)) (Squeeze.infer sym) (Squeeze.infer conc) := by
  refine (h.demand 0).bind fun x u hx => ?_
  have hs := hx.shape
  generalize x.shape = s at hs ⊢
  generalize u.shape = c at hs ⊢
  cases s with
  | unknown =>
    refine follows_unranked fun ws hws => ?_
    cases c with
    | unknown =>
      cases hws
      exact ⟨_, rfl, hx.dtype.symm⟩
    | ranked cs =>
      obtain ⟨s, -, hs⟩ := Outcome.bind_eq_ok.mp hws
      cases hs
      exact ⟨_, rfl, by simpa using hx.dtype.symm⟩
  | ranked ds =>
    obtain ⟨cs, rfl, hd⟩ := hs
    refine (outputShape_follows hd (h.whole 1 hwhole)).bind fun s s' hs => ?_
    exact follows_single (hx.reshaped (by simp) (by simpa using hs))

theorem Unsqueeze.insertOnes_covers (ones : List Nat) (rank k : Nat) {ds cs : List SymDim}
    (h : List.Forall₂ (SymDim.Covers names) ds cs) :
    List.Forall₂ (SymDim.Covers names) (insertOnes ones rank k ds) (insertOnes ones rank k cs) := by
  induction rank generalizing k ds cs with
  | zero => exact .nil
  | succ rank ih =>
    by_cases hk : ones.contains k = true
    · simp only [insertOnes, hk, if_true]
      exact .cons rfl (ih (k + 1) h)
    · simp only [insertOnes, hk]
      cases h with
      | nil => exact .cons (SymDim.covers_unknown _) (ih (k + 1) .nil)
      | cons hd hs => exact .cons hd (ih (k + 1) hs)

theorem Unsqueeze.length_insertOnes (ones : List Nat) (rank k : Nat) (ds : List SymDim) :
    (insertOnes ones rank k ds).length = rank := by
  induction rank generalizing k ds with
  | zero => rfl
  | succ rank ih =>
    unfold insertOnes
    split_ifs <;> simp [ih]

theorem Unsqueeze.outputShape_follows {s c : SymShape} (h : s.Covers names c) {t u : SymTensor}
    (ht : FitsWhole names t u) (hu : u.demandIntVector = .ok ()) :
    Outcome.Follows (SymShape.Covers names) (outputShape s t) (outputShape c u) := by
  cases s with
  | unknown => exact SymShape.follows_unknown _
  | ranked ds =>
    obtain ⟨cs, rfl, hd⟩ := h
    cases hns : t.ints? with
    | some ns =>
      simp only [outputShape, hns, ht.ints? ns hns, hd.length_eq]
      refine Outcome.follows_bind_same fun ones _ => Outcome.follows_bind_same fun _ _ => ?_
      exact Outcome.follows_ok (SymShape.ranked_covers_ranked.mpr (insertOnes_covers ones _ 0 hd))
    | none =>
      obtain ⟨hdtype, r, hr⟩ := demandIntVector_eq_ok hu
      obtain ⟨ms, hms, hlen⟩ := ht.ints_of_vector hdtype hr
      cases hn : (t.shape.dim 0).value? with
      | none => simpa only [outputShape, hns, hn] using SymShape.follows_unknown _
      | some n =>
        simp only [outputShape, hns, hn, hms]
        refine Outcome.follows_bind_left (by simp) fun rank hrank => ?_
        refine Outcome.follows_bind_right fun ones _ => Outcome.follows_bind_right fun _ _ => ?_
        have hcount : rank = (insertOnes ones (cs.length + ms.length) 0 cs).length := by
          rw [length_insertOnes, ← (checkSize_eq_ok.mp hrank).2, hlen n hn, hd.length_eq]
        rw [hcount]
        exact SymShape.follows_ofLargeRank _ (SymShape.ofRank_covers _) fun c hc => by cases hc; rfl

theorem Unsqueeze.infer_follows (h : Fit names whole sym conc) (hwhole : 1 ∈ whole) :
    Outcome.Follows (List.Forall₂ (Fits names)) (Unsqueeze.infer sym) (Unsqueeze.infer conc) := by
  refine (h.demand 0).bind fun x u hx => (h.demandWhole hwhole).bind fun t v ht => ?_
  refine ht.1.demandIntVector.bind_ok fun _ _ _ _ hvector => ?_
  refine (outputShape_follows hx.shape ht hvector).bind fun s s' hs => ?_
  exact follows_single (hx.reshaped (by simp) (by simpa using hs))

theorem Transpose.infer_follows (op : Transpose) (h : Fit names whole sym conc) :
    Outcome.Follows (List.Forall₂ (Fits names)) (op.infer sym) (op.infer conc) := by
  refine (h.demand 0).bind fun x u hx => ?_
  have hs := hx.shape
  generalize x.shape = s at hs ⊢
  generalize u.shape = c at hs ⊢
  cases s with
  | unknown =>
    cases c with
    | unknown =>
      refine follows_single (fits_ofShape hx.dtype ?_)
      cases op.perm with
      | none => exact SymShape.covers_unknown _
      | some perm => exact SymShape.ofRank_covers_ofRank _
    | ranked cs =>
      refine Outcome.follows_bind_right fun perm hperm => follows_single (ofShape_fits ?_ ?_)
      · simpa using hx.dtype
      · rw [shape_reshaped]
        cases hop : op.perm with
        | none => exact SymShape.covers_unknown _
        | some wanted =>
          have hsame : wanted = perm := by
            simp only [order, hop] at hperm
            split_ifs at hperm
            simpa using hperm
          have hlen : wanted.length = (perm.map fun k => cs.getD k .unknown).length := by
            simp [hsame]
          rw [Option.elim_some, hlen]
          exact SymShape.ofRank_covers _
  | ranked ds =>
    obtain ⟨cs, rfl, hd⟩ := hs
    simp only [hd.length_eq]
    refine Outcome.follows_bind_same fun perm _ => follows_single (hx.reshaped (by simp) ?_)
    rw [shape_reshaped, SymShape.ranked_covers_ranked]
    refine Related.map (R := (· = ·)) (List.forall₂_refl perm) ?_
    rintro k _ rfl
    exact Related.getD hd (SymDim.covers_unknown _) k

theorem Expand.infer_follows (h : Fit names whole sym conc) (hwhole : 1 ∈ whole) :
    Outcome.Follows (List.Forall₂ (Fits names)) (Expand.infer sym) (Expand.infer conc) := by
  refine (h.demand 0).bind fun x u hx => (h.demandWhole hwhole).bind fun t s ht => ?_
  refine ht.1.demandIntVector.bind fun _ _ _ => ?_
  refine (ht.toSizes (ε := RuleError)).bind fun target target' htarget => ?_
  refine (SymShape.broadcast_follows (.cons hx.shape (.cons htarget .nil))).bind fun s s' hs => ?_
  exact follows_single ((fits_ofShape hx.dtype hs).fillFrom _ _ _ _)

end TensorGraph
