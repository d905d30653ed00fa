import TensorGraph.Proofs.Covering.Inputs
import TensorGraph.Rearrange.Joining

/-! The shape rules of operators that join tensors along an axis, cut them into pieces along one, or
repeat them along each. -/

namespace TensorGraph

open SymTensor SymInputs

variable {names : Names} {whole : List Nat} {sym conc : SymInputs}

namespace Concat

/-- Whether dimensions from position `k` on are covered outside the axis. -/
def AgreeOff (names : Names) (dim : Nat) : Nat → List SymDim → List SymDim → Prop
  | _, [], [] => True
  | k, d :: ds, c :: cs => (k ≠ dim → d.Covers names c) ∧ AgreeOff names dim (k + 1) ds cs
  | _, _, _ => False

def agreeDim (dim : Nat) (entry : (SymDim × SymDim) × Nat) : Outcome RuleError SymDim :=
  if entry.2 = dim then .ok entry.1.1 else entry.1.1.refine entry.1.2

theorem agreeOff_of_covers {ds cs : List SymDim} (h : List.Forall₂ (SymDim.Covers names) ds cs)
    (dim k : Nat) : AgreeOff names dim k ds cs := by
  induction h generalizing k with
  | nil => trivial
  | cons hd _ ih => exact ⟨fun _ => hd, ih (k + 1)⟩

theorem covers_of_agreeOff_lt {dim k : Nat} {ds cs : List SymDim} (h : AgreeOff names dim k ds cs)
    (hk : dim < k) : List.Forall₂ (SymDim.Covers names) ds cs := by
  induction ds generalizing k cs with
  | nil =>
    cases cs with
    | nil => exact .nil
    | cons c cs => cases h
  | cons d ds ih =>
    cases cs with
    | nil => cases h
    | cons c cs => exact .cons (h.1 (by omega)) (ih h.2 (by omega))

theorem covers_set_of_agreeOff {dim k : Nat} {ds cs : List SymDim}
    (h : AgreeOff names dim k ds cs) {t t' : SymDim} (ht : t.Covers names t') (hk : k ≤ dim) :
    List.Forall₂ (SymDim.Covers names) (ds.set (dim - k) t) (cs.set (dim - k) t') := by
  induction ds generalizing k cs with
  | nil =>
    cases cs with
    | nil => exact .nil
    | cons c cs => cases h
  | cons d ds ih =>
    cases cs with
    | nil => cases h
    | cons c cs =>
      by_cases hdim : k = dim
      · subst hdim
        rw [Nat.sub_self]
        exact .cons ht (covers_of_agreeOff_lt h.2 (by omega))
      · have hnext : dim - k = dim - (k + 1) + 1 := by omega
        rw [hnext]
        exact .cons (h.1 hdim) (ih h.2 (by omega))

theorem length_agreeDims {dim k : Nat} {cs ys rs : List SymDim} (hlen : cs.length = ys.length)
    (hr : ((cs.zip ys).zipIdx k).mapM (agreeDim dim) = .ok rs) : rs.length = cs.length := by
  have := (Outcome.mapM_eq_ok.mp hr).length_eq
  simp at this
  omega

/-- A tensor that is joined in the run, of which inference does not know the rank. -/
theorem AgreeOff.skip {dim k : Nat} {ds cs ys rs : List SymDim} (h : AgreeOff names dim k ds cs)
    (hlen : cs.length = ys.length)
    (hr : ((cs.zip ys).zipIdx k).mapM (agreeDim dim) = .ok rs) : AgreeOff names dim k ds rs := by
  induction ds generalizing k cs ys rs with
  | nil =>
    cases cs with
    | nil =>
      cases hr
      trivial
    | cons c cs => cases h
  | cons d ds ih =>
    cases cs with
    | nil => cases h
    | cons c cs =>
      cases ys with
      | nil => cases hlen
      | cons y ys =>
        obtain ⟨r, rs', rfl, hc, hrs⟩ := Outcome.mapM_cons_eq_ok hr
        refine ⟨fun hk => ?_, ih h.2 (by simpa using hlen) hrs⟩
        simp only [agreeDim, hk, if_false] at hc
        exact (h.1 hk).refined_left hc

/-- The first tensor of which inference knows the rank. -/
theorem AgreeOff.start {dim k : Nat} {ds cs ys rs : List SymDim}
    (h : List.Forall₂ (SymDim.Covers names) ds ys) (hlen : cs.length = ys.length)
    (hr : ((cs.zip ys).zipIdx k).mapM (agreeDim dim) = .ok rs) : AgreeOff names dim k ds rs := by
  induction h generalizing k cs rs with
  | nil =>
    cases cs with
    | nil =>
      cases hr
      trivial
    | cons c cs => cases hlen
  | cons hd _ ih =>
    cases cs with
    | nil => cases hlen
    | cons c cs =>
      obtain ⟨r, rs', rfl, hc, hrs⟩ := Outcome.mapM_cons_eq_ok hr
      refine ⟨fun hk => ?_, ih (by simpa using hlen) hrs⟩
      simp only [agreeDim, hk, if_false] at hc
      exact hd.refined_right hc

theorem AgreeOff.step {dim k : Nat} {ds cs xs ys : List SymDim} (h : AgreeOff names dim k ds cs)
    (h' : List.Forall₂ (SymDim.Covers names) xs ys) (hlen : cs.length = ys.length) :
    Outcome.Follows (AgreeOff names dim k) (((ds.zip xs).zipIdx k).mapM (agreeDim dim))
      (((cs.zip ys).zipIdx k).mapM (agreeDim dim)) := by
  induction h' generalizing k ds cs with
  | nil =>
    cases cs with
    | nil =>
      rw [List.zip_nil_right]
      exact Outcome.follows_ok trivial
    | cons c cs => cases hlen
  | @cons x y xs ys hxy _ ih =>
    cases cs with
    | nil => cases hlen
    | cons c cs =>
      cases ds with
      | nil => cases h
      | cons d ds =>
        have hentry : Outcome.Follows (fun d c => k ≠ dim → SymDim.Covers names d c)
            (agreeDim dim ((d, x), k)) (agreeDim dim ((c, y), k)) := by
          by_cases hk : k = dim
          · simp only [agreeDim, hk, if_true]
            exact Outcome.follows_ok fun hne => absurd rfl hne
          · simp only [agreeDim, hk, if_false]
            exact ((h.1 hk).refine hxy).mono fun _ _ hcov _ => hcov
        simp only [List.zip_cons_cons, List.zipIdx_cons, List.mapM_cons]
        refine hentry.bind fun e e' he => (ih h.2 (by simpa using hlen)).bind fun es es' hes => ?_
        exact Outcome.follows_ok ⟨he, hes⟩

theorem agreeOff_fold {dim : Nat} {xss yss : List (List SymDim)} {n : Nat}
    (h : List.SublistForall₂ (List.Forall₂ (SymDim.Covers names)) xss yss)
    (hn : ∀ ys ∈ yss, ys.length = n) {ds cs : List SymDim} (hd : AgreeOff names dim 0 ds cs)
    (hcs : cs.length = n) :
    Outcome.Follows (AgreeOff names dim 0) (xss.foldlM (agreeDims dim) ds)
      (yss.foldlM (agreeDims dim) cs) := by
  induction h generalizing ds cs with
  | @nil yss =>
    induction yss generalizing cs with
    | nil => exact Outcome.follows_ok hd
    | cons ys yss ih =>
      simp only [List.mem_cons, forall_eq_or_imp] at hn
      have hlen : cs.length = ys.length := hcs.trans hn.1.symm
      rw [List.foldlM_cons]
      refine Outcome.follows_bind_right fun rs hr => ?_
      exact ih hn.2 (hd.skip hlen hr) ((length_agreeDims hlen hr).trans hcs)
  | @cons xs ys xss yss hxy _ ih =>
    simp only [List.mem_cons, forall_eq_or_imp] at hn
    have hlen : cs.length = ys.length := hcs.trans hn.1.symm
    rw [List.foldlM_cons, List.foldlM_cons]
    refine (hd.step hxy hlen).bind_ok fun es rs hes _ hr => ?_
    exact ih hn.2 hes ((length_agreeDims hlen hr).trans hcs)
  | @cons_right ys xss yss _ ih =>
    simp only [List.mem_cons, forall_eq_or_imp] at hn
    have hlen : cs.length = ys.length := hcs.trans hn.1.symm
    rw [List.foldlM_cons]
    refine Outcome.follows_bind_right fun rs hr => ?_
    exact ih hn.2 (hd.skip hlen hr) ((length_agreeDims hlen hr).trans hcs)

/-- Inference joins those tensors of a run of which it knows the rank. -/
theorem fold_follows {dim : Nat} {xs : List SymDim} {xss yss : List (List SymDim)} {n : Nat}
    (h : List.SublistForall₂ (List.Forall₂ (SymDim.Covers names)) (xs :: xss) yss)
    (hn : ∀ ys ∈ yss, ys.length = n) {cs : List SymDim} (hcs : cs.length = n) :
    Outcome.Follows (AgreeOff names dim 0) (xss.foldlM (agreeDims dim) xs)
      (yss.foldlM (agreeDims dim) cs) := by
  induction yss generalizing cs with
  | nil => cases h
  | cons ys yss ih =>
    simp only [List.mem_cons, forall_eq_or_imp] at hn
    have hlen : cs.length = ys.length := hcs.trans hn.1.symm
    rw [List.foldlM_cons]
    refine Outcome.follows_bind_right fun rs hr => ?_
    have hrs : rs.length = n := (length_agreeDims hlen hr).trans hcs
    cases h with
    | cons hxy hs => exact agreeOff_fold hs hn.2 (AgreeOff.start hxy hlen hr) hrs
    | cons_right hs => exact ih hs hn.2 hrs

/-- The tensors of which inference knows the rank are among those of a run. -/
theorem ranked_sublist {ss cs : List SymShape} (h : List.Forall₂ (SymShape.Covers names) ss cs) :
    List.SublistForall₂ (List.Forall₂ (SymDim.Covers names)) (ss.filterMap (·.dims?))
      (cs.filterMap (·.dims?)) := by
  induction h with
  | nil => exact .nil
  | @cons s c ss cs hsc _ ih =>
    cases s with
    | unknown =>
      cases c with
      | unknown => exact ih
      | ranked ds => exact .cons_right ih
    | ranked ds =>
      obtain ⟨es, rfl, hd⟩ := hsc
      exact .cons hd ih

theorem ranked_all {ss cs : List SymShape} (h : List.Forall₂ (SymShape.Covers names) ss cs)
    (hall : (ss.filterMap (·.dims?)).length = ss.length) :
    List.Forall₂ (List.Forall₂ (SymDim.Covers names)) (ss.filterMap (·.dims?))
      (cs.filterMap (·.dims?)) := by
  induction h with
  | nil => exact .nil
  | @cons s c ss cs hsc _ ih =>
    cases s with
    | unknown =>
      have hle := List.length_filterMap_le (·.dims?) ss
      rw [List.filterMap_cons_none rfl, List.length_cons] at hall
      omega
    | ranked ds =>
      obtain ⟨es, rfl, hd⟩ := hsc
      exact .cons hd (ih (by simpa [SymShape.dims?] using hall))

theorem sublist_lengths {xss yss : List (List SymDim)} {n : Nat}
    (h : List.SublistForall₂ (List.Forall₂ (SymDim.Covers names)) xss yss)
    (hn : ∀ ys ∈ yss, ys.length = n) : ∀ xs ∈ xss, xs.length = n := by
  induction h with
  | nil => simp
  | cons hxy _ ih =>
    simp only [List.mem_cons, forall_eq_or_imp] at hn ⊢
    exact ⟨hxy.length_eq.trans hn.1, ih hn.2⟩
  | cons_right _ ih =>
    simp only [List.mem_cons, forall_eq_or_imp] at hn
    exact ih hn.2

theorem total_covers {dim : Nat} {xss yss : List (List SymDim)}
    (h : List.Forall₂ (List.Forall₂ (SymDim.Covers names)) xss yss) :
    (SymDim.total (xss.map (·.getD dim .unknown))).Covers names
      (SymDim.total (yss.map (·.getD dim .unknown))) :=
  SymDim.Covers.total (Related.map h fun _ _ hxy =>
    Related.getD hxy (SymDim.covers_unknown _) dim)

theorem outputShape_follows (op : Concat) {ss cs : List SymShape}
    (h : List.Forall₂ (SymShape.Covers names) ss cs) :
    Outcome.Follows (SymShape.Covers names) (op.outputShape ss) (op.outputShape cs) := by
  have hsub := ranked_sublist h
  have hranked := ranked_all h
  unfold outputShape
  cases hx : ss.filterMap (·.dims?) with
  | nil => exact SymShape.follows_unknown _
  | cons xs xss =>
    cases hy : cs.filterMap (·.dims?) with
    | nil =>
      rw [hx, hy] at hsub
      cases hsub
    | cons ys yss =>
      rw [hx, hy] at hsub
      rw [hx, hy, h.length_eq] at hranked
      refine Outcome.follows_bind_right fun _ hsame => ?_
      have hys : ∀ l ∈ ys :: yss, l.length = ys.length := by
        rw [Outcome.refuseIf_eq_ok] at hsame
        simpa using hsame
      have hxs := sublist_lengths hsub hys
      have hsame' : ¬(xss.any (·.length ≠ xs.length) = true) := by
        simp only [List.mem_cons, forall_eq_or_imp] at hxs
        simpa [hxs.1] using hxs.2
      have hfold : ∀ dim, Outcome.Follows (AgreeOff names dim 0) (xss.foldlM (agreeDims dim) xs)
          (yss.foldlM (agreeDims dim) ys) := by
        intro dim
        have htail : ∀ l ∈ yss, l.length = ys.length := fun l hl =>
          hys l (List.mem_cons_of_mem _ hl)
        cases hsub with
        | cons hxy hs => exact agreeOff_fold hs htail (agreeOff_of_covers hxy dim 0) rfl
        | cons_right hs => exact fold_follows hs htail rfl
      refine Outcome.follows_bind_left (fun e he => ?_) fun _ _ => ?_
      · rw [Outcome.refuseIf_neg hsame'] at he
        cases he
      rw [hxs xs List.mem_cons_self]
      refine Outcome.follows_bind_same fun dim _ => (hfold dim).bind fun ds es hde => ?_
      refine Outcome.follows_ok (SymShape.ranked_covers_ranked.mpr ?_)
      refine covers_set_of_agreeOff hde ?_ (Nat.zero_le dim)
      by_cases hall : xss.length + 1 = ss.length
      · have hboth := hranked (by simpa [h.length_eq] using hall)
        have hall' : yss.length + 1 = cs.length := by
          have := hboth.length_eq
          rw [List.length_cons, List.length_cons] at this
          rw [← h.length_eq]
          omega
        rw [if_pos hall, if_pos hall']
        exact total_covers hboth
      · rw [if_neg hall]
        exact SymDim.covers_unknown _

theorem infer_follows (op : Concat) (h : Fit names whole sym conc) :
    Outcome.Follows (List.Forall₂ (Fits names)) (op.infer sym) (op.infer conc) := by
  refine (h.demand 0).bind fun x u hx => ?_
  have hshapes : List.Forall₂ (SymShape.Covers names) ((Inputs.given sym).map (·.shape))
      ((Inputs.given conc).map (·.shape)) := Related.map h.given fun _ _ hab => hab.shape
  refine (Outcome.follows_refuseIf (h.given_types hx.dtype)).bind fun _ _ _ => ?_
  refine (op.outputShape_follows hshapes).bind fun s c hs => ?_
  have hout := fits_ofShape hx.dtype hs
  split <;> split
  · exact follows_single ((hout.setLeading _).congr_right rfl rfl)
  · exact follows_single (hout.setLeading _)
  · exact follows_single (hout.congr_right rfl rfl)
  · exact follows_single hout

end Concat

namespace Split

theorem length_evenSizes (piece count left : Nat) :
    (evenSizes piece count left).length = count := by
  induction count generalizing left with
  | zero => rfl
  | succ count ih => simp [evenSizes, ih]

def takeSizes (op : Split) (d : SymDim) : SymShape → Outcome RuleError (List SymDim)
  | .unknown => op.unknownSizes
  | .ranked ds => do
    .refuseIf (ds.length ≠ op.count) (.value .splitCount)
    .refuseIf (ds.any fun s => s.value?.any (· < 0)) (.value .negativeSplit)
    .refuseIf ((SymDim.total ds).value?.any fun total => d.value?.any (total ≠ ·))
      (.shape .splitTotal)
    return ds

theorem listedSizes_eq (op : Split) (d : SymDim) (t : SymTensor) :
    op.listedSizes d t = (do
      .refuseIf (t.dtype ≠ .int) (.type .split)
      op.takeSizes d (← t.toSizes)) := by
  refine bind_congr fun _ => bind_congr fun s => ?_
  cases s with
  | unknown => rfl
  | ranked ds =>
    refine bind_congr fun _ => bind_congr fun _ => ?_
    cases (SymDim.total ds).value? with
    | none => rfl
    | some total => cases d.value? <;> simp [Outcome.refuseIf]

theorem length_takeSizes {op : Split} {d : SymDim} {s : SymShape} {ds : List SymDim}
    (h : op.takeSizes d s = .ok ds) : ds.length = op.count := by
  cases s with
  | unknown =>
    obtain ⟨-, -, h⟩ := Outcome.bind_eq_ok.mp h
    cases h
    exact List.length_replicate
  | ranked es =>
    simp only [takeSizes, Outcome.bind_eq_ok, Outcome.refuseIf_eq_ok, not_not] at h
    obtain ⟨-, hlen, -, -, -, -, h⟩ := h
    cases h
    exact hlen

theorem length_listedSizes {op : Split} {d : SymDim} {t : SymTensor} {ds : List SymDim}
    (h : op.listedSizes d t = .ok ds) : ds.length = op.count := by
  rw [listedSizes_eq] at h
  obtain ⟨-, -, h⟩ := Outcome.bind_eq_ok.mp h
  obtain ⟨s, -, h⟩ := Outcome.bind_eq_ok.mp h
  exact length_takeSizes h

theorem length_sizes {op : Split} {d : SymDim} {t : Option SymTensor} {ds : List SymDim}
    (h : op.sizes d t = .ok ds) : ds.length = op.count := by
  cases t with
  | some t => exact length_listedSizes h
  | none =>
    unfold sizes at h
    cases hd : d.value? with
    | none =>
      simp only [hd, unknownSizes, Outcome.bind_eq_ok] at h
      obtain ⟨-, -, h⟩ := h
      cases h
      exact List.length_replicate
    | some n =>
      simp only [hd, Outcome.bind_eq_ok] at h
      obtain ⟨-, -, h⟩ := h
      cases h
      exact length_evenSizes _ _ _

theorem unknownSizes_follows (op : Split) {y : Outcome RuleError (List SymDim)}
    (hy : ∀ ds, y = .ok ds → ds.length = op.count) :
    Outcome.Follows (List.Forall₂ (SymDim.Covers names)) (op.unknownSizes : Outcome RuleError _)
      y := by
  refine Outcome.follows_bind_left (by simp [checkRoom]) fun _ _ ds hds => ?_
  refine .inr ⟨_, rfl, ?_⟩
  rw [← hy ds hds]
  exact Related.replicate_left fun c _ => SymDim.covers_unknown c

theorem takeSizes_follows (op : Split) {d c : SymDim} (hd : d.Covers names c) {s r : SymShape}
    (hs : s.Covers names r) :
    Outcome.Follows (List.Forall₂ (SymDim.Covers names)) (op.takeSizes d s) (op.takeSizes c r) := by
  cases s with
  | unknown => exact op.unknownSizes_follows fun _ => length_takeSizes
  | ranked ds =>
    obtain ⟨cs, rfl, hcs⟩ := hs
    have htotal : ((SymDim.total ds).value?.any fun total => d.value?.any (total ≠ ·)) = true →
        ((SymDim.total cs).value?.any fun total => c.value?.any (total ≠ ·)) = true := by
      intro h
      obtain ⟨total, ht, hne⟩ := (Option.any_eq_true _ _).mp h
      rw [(SymDim.Covers.total hcs).value? total ht]
      exact hd.value?.any hne
    rw [takeSizes, takeSizes, hcs.length_eq]
    refine Outcome.follows_bind_same fun _ _ => ?_
    refine (Outcome.follows_refuseIf (Related.any hcs fun _ _ h => h.value?.any)).bind
      fun _ _ _ => ?_
    exact (Outcome.follows_refuseIf htotal).bind fun _ _ _ => Outcome.follows_ok hcs

theorem listedSizes_follows (op : Split) {d c : SymDim} (hd : d.Covers names c) {t u : SymTensor}
    (ht : FitsWhole names t u) :
    Outcome.Follows (List.Forall₂ (SymDim.Covers names)) (op.listedSizes d t)
      (op.listedSizes c u) := by
  rw [listedSizes_eq, listedSizes_eq, ht.1.dtype]
  refine Outcome.follows_bind_same fun _ _ => ?_
  exact ht.toSizes.bind fun s r hs => op.takeSizes_follows hd hs

theorem evenSizes_covers {piece count left : Nat} {d : SymDim}
    (h : d ∈ evenSizes piece count left) : d.Covers names d := by
  induction count generalizing left with
  | zero => simp [evenSizes] at h
  | succ count ih =>
    rcases List.mem_cons.mp h with rfl | h
    · rfl
    · exact ih h

theorem sizes_follows (op : Split) {d c : SymDim} (hd : d.Covers names c)
    {t u : Option SymTensor} (ht : Option.Rel (FitsWhole names) t u) :
    Outcome.Follows (List.Forall₂ (SymDim.Covers names)) (op.sizes d t) (op.sizes c u) := by
  cases ht with
  | some ht => exact op.listedSizes_follows hd ht
  | none =>
    have hlength := fun ds => @length_sizes op c none ds
    unfold sizes at hlength ⊢
    cases hv : d.value? with
    | none => exact op.unknownSizes_follows hlength
    | some n =>
      rw [hd.value? n hv]
      refine Outcome.follows_bind_same fun _ _ => Outcome.follows_ok ?_
      exact List.forall₂_same.mpr fun d hd => evenSizes_covers hd

theorem piece_fits {x u : SymTensor} (hx : Fits names x u) {ds cs : List SymDim}
    (hd : List.Forall₂ (SymDim.Covers names) ds cs) (dim : Nat) (start start' : Option Nat)
    {size size' : SymDim} (hs : size.Covers names size') :
    Fits names (piece x ds dim start size) (piece u cs dim start' size') := by
  have hout : Fits names (ofShape x.dtype (.ranked (ds.set dim size)))
      (ofShape u.dtype (.ranked (cs.set dim size'))) :=
    fits_ofShape hx.dtype (SymShape.ranked_covers_ranked.mpr (Related.set hd hs dim))
  have hleft : Fits names (piece x ds dim start size)
      (ofShape u.dtype (.ranked (cs.set dim size'))) := by
    unfold piece
    split
    · split_ifs
      · exact ⟨hout.dtype, hout.shape, hout.tracked.map x.dtype fun es => by simp⟩
      · exact hout
    · exact hout
  refine hleft.congr_right ?_ ?_ <;> unfold piece <;> split <;> try split_ifs
  all_goals rfl

def nextStart {ε : Type} (start : Option Nat) (size : SymDim) : Outcome ε (Option Nat) :=
  match start, size.value? with
  | some start, some n => some <$> checkSize (start + sizeOfInt n)
  | _, _ => .ok none

theorem pieces_cons {ε : Type} (x : SymTensor) (ds : List SymDim) (dim : Nat) (start : Option Nat)
    (size : SymDim) (sizes : List SymDim) :
    (pieces x ds dim start (size :: sizes) : Outcome ε _) = (do
      let next ← nextStart start size
      return piece x ds dim start size :: (← pieces x ds dim next sizes)) := by
  cases start <;> cases hs : size.value? <;> simp [pieces, nextStart, hs]

theorem nextStart_follows {start start' : Option Nat} (hstart : Told start start')
    {size size' : SymDim} (hs : size.Covers names size') :
    Outcome.Follows Told (nextStart start size : Outcome RuleError _)
      (nextStart start' size' : Outcome RuleError _) := by
  have hnone : ∀ y : Outcome RuleError (Option Nat),
      Outcome.Follows Told (.ok none : Outcome RuleError (Option Nat)) y :=
    fun y b hb => .inr ⟨none, rfl, fun x hx => by cases hx⟩
  cases start with
  | none => exact hnone _
  | some first =>
    cases hv : size.value? with
    | none => simpa only [nextStart, hv] using hnone _
    | some n =>
      rw [hstart first rfl]
      simp only [nextStart, hv, hs.value? n hv]
      exact (Outcome.follows_refl _).mono fun a b hab => hab ▸ fun _ => id

theorem pieces_follows {x u : SymTensor} (hx : Fits names x u) {ds cs : List SymDim}
    (hd : List.Forall₂ (SymDim.Covers names) ds cs) (dim : Nat) {sizes sizes' : List SymDim}
    (hs : List.Forall₂ (SymDim.Covers names) sizes sizes') {start start' : Option Nat}
    (hstart : Told start start') :
    Outcome.Follows (List.Forall₂ (Fits names)) (pieces x ds dim start sizes : Outcome RuleError _)
      (pieces u cs dim start' sizes' : Outcome RuleError _) := by
  induction hs generalizing start start' with
  | nil => exact Outcome.follows_ok .nil
  | @cons size size' sizes sizes' hsize _ ih =>
    rw [pieces_cons, pieces_cons]
    refine (nextStart_follows hstart hsize).bind fun next next' hnext => ?_
    refine (ih hnext).bind fun ps ps' hps => ?_
    exact Outcome.follows_ok (.cons (piece_fits hx hd dim start start' hsize) hps)

theorem dtype_piece (x : SymTensor) (ds : List SymDim) (dim : Nat) (start : Option Nat)
    (size : SymDim) : (piece x ds dim start size).dtype = x.dtype := by
  unfold piece
  split
  · split_ifs <;> rfl
  · rfl

theorem shape_piece (x : SymTensor) (ds : List SymDim) (dim : Nat) (start : Option Nat)
    (size : SymDim) : (piece x ds dim start size).shape = .ranked (ds.set dim size) := by
  unfold piece
  split
  · split_ifs <;> rfl
  · rfl

theorem pieces_ok {ε : Type} {x : SymTensor} {ds : List SymDim} {dim : Nat} {start : Option Nat}
    {sizes : List SymDim} {ws : List SymTensor}
    (h : (pieces x ds dim start sizes : Outcome ε _) = .ok ws) :
    ws.length = sizes.length ∧ ∀ w ∈ ws, w.dtype = x.dtype := by
  induction sizes generalizing start ws with
  | nil =>
    cases h
    simp
  | cons size sizes ih =>
    rw [pieces_cons] at h
    obtain ⟨next, -, h⟩ := Outcome.bind_eq_ok.mp h
    obtain ⟨ps, hps, h⟩ := Outcome.bind_eq_ok.mp h
    cases h
    obtain ⟨hlen, hdtype⟩ := ih hps
    exact ⟨by simp [hlen], by simpa [dtype_piece] using hdtype⟩

theorem infer_follows (op : Split) (h : Fit names whole sym conc) (hwhole : 1 ∈ whole) :
    Outcome.Follows (List.Forall₂ (Fits names)) (op.infer sym) (op.infer conc) := by
  refine (h.demand 0).bind fun x u hx => Outcome.follows_bind_same fun _ _ => ?_
  have hs := hx.shape
  generalize x.shape = s at hs ⊢
  generalize u.shape = c at hs ⊢
  cases s with
  | unknown =>
    refine Outcome.follows_bind_left (by simp [checkRoom]) fun _ _ ws hws => .inr ⟨_, rfl, ?_⟩
    cases c with
    | unknown =>
      obtain ⟨-, -, hws⟩ := Outcome.bind_eq_ok.mp hws
      cases hws
      have hfits : Fits names (unranked x.dtype) (unranked u.dtype) := fits_unranked hx.dtype
      exact Related.replicate hfits op.count
    | ranked cs =>
      obtain ⟨dim, -, hws⟩ := Outcome.bind_eq_ok.mp hws
      obtain ⟨sizes, hsizes, hws⟩ := Outcome.bind_eq_ok.mp hws
      obtain ⟨hlen, hdtype⟩ := pieces_ok hws
      rw [← length_sizes hsizes, ← hlen]
      exact Related.replicate_left fun w hw => fits_unranked (hx.dtype.trans (hdtype w hw).symm)
  | ranked ds =>
    obtain ⟨cs, rfl, hd⟩ := hs
    simp only [hd.length_eq]
    refine Outcome.follows_bind_same fun dim _ => ?_
    have hdim := Related.getD hd (SymDim.covers_unknown .unknown) dim
    refine (op.sizes_follows hdim (h.whole 1 hwhole)).bind fun sizes sizes' hsizes => ?_
    exact pieces_follows hx hd dim hsizes fun _ => id

end Split

theorem SymShape.rank?_tile {c r : SymShape} {rs : List SymDim} (h : c.tile rs = .ok r) {n : Nat}
    (hc : c.rank? = some n) : r.rank? = some n := by
  obtain ⟨-, -, h⟩ := Outcome.bind_eq_ok.mp h
  cases c with
  | unknown => simp [rank?, dims?] at hc
  | ranked cs =>
    obtain ⟨_, hlen, h⟩ := Outcome.bind_eq_ok.mp h
    cases h
    rw [Outcome.refuseIf_eq_ok, not_not] at hlen
    simpa [rank?, dims?, hlen] using hc

theorem Tile.infer_follows (h : Fit names whole sym conc) (hwhole : 1 ∈ whole) :
    Outcome.Follows (List.Forall₂ (Fits names)) (Tile.infer sym) (Tile.infer conc) := by
  refine (h.demand 0).bind fun x u hx => (h.demandWhole hwhole).bind fun t v ht => ?_
  rw [ht.1.dtype]
  refine Outcome.follows_bind_same fun _ _ => (ht.toSizes (ε := RuleError)).bind fun s r hs => ?_
  cases s with
  | ranked ds =>
    obtain ⟨cs, rfl, hd⟩ := hs
    exact (hx.shape.tile hd).bind fun s' r' hs' => follows_single (fits_ofShape hx.dtype hs')
  | unknown =>
    cases r with
    | unknown =>
      refine follows_single (fits_ofShape hx.dtype (hx.shape.rankOnly fun n hn => ?_))
      rw [show u.rank? = some n from hn, Option.elim_some, SymShape.rank?_ofRank]
    | ranked cs =>
      refine Outcome.follows_bind_right fun r' hr' => follows_single (fits_ofShape hx.dtype ?_)
      exact hx.shape.rankOnly fun n hn => SymShape.rank?_tile hr' hn

end TensorGraph
