import TensorGraph.Proofs.Covering.Shape
import TensorGraph.Symbolic.Reshape

/-! Reshaping a described tensor to described sizes. An entry of the target that is a name is taken
for a size, while the entry that it stands for may ask for a copied or an open size; the shape is
covered where no name stands for such an entry. -/

namespace TensorGraph

namespace SymDim

variable {names : Names}

theorem mul_zero_left (d : SymDim) : size 0 * d = size 0 := by
  change mul (size 0) d = size 0
  by_cases hd : d = size 1 <;> simp [mul, hd]

theorem mul_zero_right (d : SymDim) : d * size 0 = size 0 := by
  change mul d (size 0) = size 0
  by_cases hd : d = size 1 <;> simp [mul, hd]

theorem mul_ne_zero {d e : SymDim} (hd : d ≠ size 0) (he : e ≠ size 0) : d * e ≠ size 0 := by
  change mul d e ≠ size 0
  by_cases hone : e = size 1
  · simpa [mul, hone] using hd
  by_cases hone' : d = size 1
  · simpa [mul, hone, hone'] using he
  simp only [mul, hone, hone', hd, he, or_self, if_false]
  cases d with
  | size m =>
    cases e with
    | size n =>
      intro h
      cases hk : mulInt? m n with
      | none => simp [hk, ofOption] at h
      | some k =>
        simp only [hk, ofOption, size.injEq] at h
        have hprod := toInt_of_mulInt? hk
        rw [h, Int64.toInt_zero, eq_comm, Int.mul_eq_zero] at hprod
        rcases hprod with hm | hn
        · exact hd (congrArg size (Int64.toInt_inj.mp hm))
        · exact he (congrArg size (Int64.toInt_inj.mp hn))
    | unknown | param _ => simp
  | unknown | param _ => simp

theorem mul_unknown {d : SymDim} (hd : d ≠ size 0) : d * unknown = unknown := by
  change mul d unknown = unknown
  by_cases hone : d = size 1
  · simp [mul, hone]
  · cases d <;> simp_all [mul]

theorem unknown_mul {d : SymDim} (hd : d ≠ size 0) : unknown * d = unknown := by
  change mul unknown d = unknown
  by_cases hone : d = size 1
  · simp [mul, hone]
  · cases d <;> simp_all [mul]

theorem foldl_mul_zero (ds : List SymDim) : ds.foldl (· * ·) (size 0) = size 0 := by
  induction ds with
  | nil => rfl
  | cons d ds ih => rw [List.foldl_cons, mul_zero_left, ih]

theorem foldl_mul_unknown {ds : List SymDim} (hds : size 0 ∉ ds) :
    ds.foldl (· * ·) unknown = unknown := by
  induction ds with
  | nil => rfl
  | cons d ds ih =>
    rw [List.mem_cons, not_or] at hds
    rw [List.foldl_cons, unknown_mul (Ne.symm hds.1), ih hds.2]

theorem product_of_zero_mem {ds : List SymDim} (h : size 0 ∈ ds) : product ds = size 0 := by
  have hfold : ∀ acc, ds.foldl (· * ·) acc = size 0 := by
    induction ds with
    | nil => simp at h
    | cons d ds ih =>
      intro acc
      rcases List.mem_cons.mp h with hd | hd
      · rw [List.foldl_cons, ← hd, mul_zero_right, foldl_mul_zero]
      · exact ih hd _
  exact hfold _

/-- Only a zero among the factors settles a product with an unknown factor. -/
theorem product_of_unknown_mem {ds : List SymDim} (h : unknown ∈ ds) (hzero : size 0 ∉ ds) :
    product ds = unknown := by
  have hfold : ∀ acc, acc ≠ size 0 → ds.foldl (· * ·) acc = unknown := by
    induction ds with
    | nil => simp at h
    | cons d ds ih =>
      intro acc hacc
      rw [List.mem_cons, not_or] at hzero
      rw [List.foldl_cons]
      rcases List.mem_cons.mp h with hd | hd
      · rw [← hd, mul_unknown hacc, foldl_mul_unknown hzero.2]
      · exact ih hd hzero.2 _ (mul_ne_zero hacc (Ne.symm hzero.1))
  exact hfold _ (by simp)

end SymDim

namespace SymShape

variable {names : Names}

/-- Whether no name in a target from position `i` on stands for an open size, or for the copy of a
size that is not zero. -/
def TargetKept (names : Names) (input : SymShape) (allowZero : Bool) (i : Nat)
    (wanted : List SymDim) : Prop :=
  ∀ j p n, wanted[j]? = some (.param p) → names p = some n →
    n ≠ -1 ∧ (n = 0 → allowZero = false → ¬input.rank?.any (· ≤ i + j) →
      input.dim (i + j) = .size 0)

theorem TargetKept.tail {input : SymShape} {allowZero : Bool} {i : Nat} {d : SymDim}
    {wanted : List SymDim} (h : TargetKept names input allowZero i (d :: wanted)) :
    TargetKept names input allowZero (i + 1) wanted := by
  intro j p n hj hn
  have hk := h (j + 1) p n (by simpa using hj) hn
  simpa [Nat.add_comm, Nat.add_left_comm] using hk

theorem targetDim_copy (s : SymShape) (i : Nat) : s.targetDim false i (.size 0) =
    if s.rank?.any (· ≤ i) then .error (.value .zeroWithoutDim) else .ok (s.dim i) := rfl

theorem targetDim_size (s : SymShape) {allowZero : Bool} (i : Nat) {n : Int64} (hopen : n ≠ -1)
    (hneg : ¬n < -1) (hcopy : n = 0 → allowZero = true) :
    s.targetDim allowZero i (.size n) = .ok (.size n) := by
  have hno : ¬(n = 0 ∧ (!allowZero) = true) := by
    rintro ⟨hn, ha⟩
    simp [hcopy hn] at ha
  simp only [targetDim, hopen, hneg, hno, if_false]

theorem targetDim_negative (s : SymShape) (allowZero : Bool) (i : Nat) {n : Int64}
    (hneg : n < -1) : s.targetDim allowZero i (.size n) = .error (.value .reshapeEntry) := by
  have hopen : n ≠ -1 := by
    rintro rfl
    exact absurd hneg (by decide)
  simp only [targetDim, hopen, hneg, if_false, if_true]

theorem Covers.targetDim {s c : SymShape} (h : s.Covers names c) {allowZero : Bool} {i : Nat}
    {d e : SymDim} (hd : d.Covers names e)
    (hkept : ∀ p n, d = .param p → names p = some n → n ≠ -1 ∧
      (n = 0 → allowZero = false → ¬c.rank?.any (· ≤ i) → c.dim i = .size 0)) :
    Outcome.Follows (SymDim.Covers names) (s.targetDim allowZero i d)
      (c.targetDim allowZero i e) := by
  cases d with
  | unknown => exact SymDim.follows_unknown _
  | size n =>
    rw [SymDim.covers_size.mp hd]
    by_cases hopen : n = -1
    · rw [hopen]
      exact SymDim.follows_unknown _
    by_cases hneg : n < -1
    · rw [targetDim_negative c allowZero i hneg]
      exact Outcome.follows_error _ _
    by_cases hcopy : n = 0 → allowZero = true
    · rw [targetDim_size s i hopen hneg hcopy, targetDim_size c i hopen hneg hcopy]
      exact Outcome.follows_ok rfl
    · obtain ⟨rfl, ha⟩ : n = 0 ∧ allowZero = false := by simpa using hcopy
      subst ha
      rw [targetDim_copy, targetDim_copy]
      by_cases hc : c.rank?.any (· ≤ i)
      · rw [if_pos hc]
        exact Outcome.follows_error _ _
      · rw [if_neg hc, if_neg (mt h.rank?.any hc)]
        exact Outcome.follows_ok (h.dim i)
  | param p =>
    obtain ⟨n, hn, rfl⟩ := hd
    obtain ⟨hopen, hcopied⟩ := hkept p n rfl hn
    have hp : (SymDim.param p).Covers names (.size n) := ⟨n, hn, rfl⟩
    by_cases hneg : n < -1
    · rw [targetDim_negative c allowZero i hneg]
      exact Outcome.follows_error _ _
    by_cases hcopy : n = 0 → allowZero = true
    · rw [targetDim_size c i hopen hneg hcopy]
      exact Outcome.follows_ok hp
    · obtain ⟨rfl, ha⟩ : n = 0 ∧ allowZero = false := by simpa using hcopy
      subst ha
      rw [targetDim_copy]
      by_cases hc : c.rank?.any (· ≤ i)
      · rw [if_pos hc]
        exact Outcome.follows_error _ _
      · rw [if_neg hc, hcopied rfl rfl hc]
        exact Outcome.follows_ok hp

theorem Covers.targetDims {s c : SymShape} (h : s.Covers names c) {allowZero : Bool}
    {wanted wanted' : List SymDim} (hw : List.Forall₂ (SymDim.Covers names) wanted wanted')
    {i : Nat} (hkept : TargetKept names c allowZero i wanted) {isOpen isOpen' : Bool}
    (hopen : isOpen = true → isOpen' = true) :
    Outcome.Follows (List.Forall₂ (SymDim.Covers names))
      (s.targetDims allowZero isOpen i wanted) (c.targetDims allowZero isOpen' i wanted') := by
  induction hw generalizing i isOpen isOpen' with
  | nil => exact Outcome.follows_ok .nil
  | @cons d e ds es hde _ ih =>
    have hopens : (d == .size (-1)) = true → (e == .size (-1)) = true := by
      simp only [beq_iff_eq]
      rintro rfl
      exact hde
    have hsecond : (isOpen && d == .size (-1)) = true → (isOpen' && e == .size (-1)) = true := by
      simp only [Bool.and_eq_true]
      exact fun hand => ⟨hopen hand.1, hopens hand.2⟩
    have hany : (isOpen || d == .size (-1)) = true → (isOpen' || e == .size (-1)) = true := by
      simp only [Bool.or_eq_true]
      exact Or.imp hopen hopens
    refine (Outcome.follows_refuseIf hsecond).bind fun _ _ _ => ?_
    refine (h.targetDim hde ?_).bind fun x y hxy => ?_
    · rintro p n rfl hn
      exact hkept 0 p n rfl hn
    · exact (ih hkept.tail hany).bind fun xs ys hxys => Outcome.follows_ok (.cons hxy hxys)

theorem targetDims_cons {s : SymShape} {allowZero isOpen : Bool} {i : Nat} {d : SymDim}
    {ds es : List SymDim} (h : s.targetDims allowZero isOpen i (d :: ds) = .ok es) :
    (isOpen && d == .size (-1)) = false ∧ ∃ e es', es = e :: es' ∧
      s.targetDim allowZero i d = .ok e ∧
      s.targetDims allowZero (isOpen || d == .size (-1)) (i + 1) ds = .ok es' := by
  simp only [targetDims, Outcome.bind_eq_ok, Outcome.refuseIf_eq_ok, Outcome.pure_eq,
    Outcome.ok.injEq] at h
  obtain ⟨-, hopen, e, he, es', hes, rfl⟩ := h
  exact ⟨by simpa using hopen, e, es', rfl, he, hes⟩

/-- No entry of a target that is taken asks for an open size where one is open already. -/
theorem targetDims_open {s : SymShape} {allowZero : Bool} {i : Nat} {ds es : List SymDim}
    (h : s.targetDims allowZero true i ds = .ok es) : ∀ d ∈ ds, d ≠ .size (-1) := by
  induction ds generalizing i es with
  | nil => simp
  | cons d ds ih =>
    obtain ⟨hopen, e, es', -, -, hes⟩ := targetDims_cons h
    rw [Bool.true_or] at hes
    intro d' hd'
    rcases List.mem_cons.mp hd' with rfl | hd'
    · simpa using hopen
    · exact ih hes d' hd'

/-- At most one entry of a target that is taken asks for an open size. -/
theorem targetDims_open_unique {s : SymShape} {allowZero isOpen : Bool} {i j k : Nat}
    {ds es : List SymDim} (h : s.targetDims allowZero isOpen i ds = .ok es)
    (hj : ds[j]? = some (.size (-1))) (hk : ds[k]? = some (.size (-1))) : j = k := by
  induction ds generalizing isOpen i j k es with
  | nil => simp at hj
  | cons d ds ih =>
    obtain ⟨-, e, es', -, -, hes⟩ := targetDims_cons h
    cases j with
    | zero =>
      cases k with
      | zero => rfl
      | succ k =>
        have hd : d = .size (-1) := by simpa using hj
        rw [hd, beq_self_eq_true, Bool.or_true] at hes
        exact absurd rfl (targetDims_open hes _ (List.mem_of_getElem? hk))
    | succ j =>
      cases k with
      | zero =>
        have hd : d = .size (-1) := by simpa using hk
        rw [hd, beq_self_eq_true, Bool.or_true] at hes
        exact absurd rfl (targetDims_open hes _ (List.mem_of_getElem? hj))
      | succ k => exact congrArg (· + 1) (ih hes hj hk)

theorem targetDims_getElem? {s : SymShape} {allowZero isOpen : Bool} {i j : Nat} {d : SymDim}
    {ds es : List SymDim} (h : s.targetDims allowZero isOpen i ds = .ok es)
    (hj : ds[j]? = some d) : ∃ e, es[j]? = some e ∧ s.targetDim allowZero (i + j) d = .ok e := by
  induction ds generalizing isOpen i j es with
  | nil => simp at hj
  | cons d' ds ih =>
    obtain ⟨-, e, es', rfl, he, hes⟩ := targetDims_cons h
    cases j with
    | zero =>
      have hd : d' = d := by simpa using hj
      exact ⟨e, rfl, hd ▸ he⟩
    | succ j =>
      obtain ⟨e', he', ht⟩ := ih hes hj
      exact ⟨e', he', by rwa [Nat.add_comm j, ← Nat.add_assoc]⟩

theorem openDim_follows {t k t' k' : SymDim} (ht : t.Covers names t') (hk : k.Covers names k') :
    Outcome.Follows (SymDim.Covers names) (openDim t k) (openDim t' k') := by
  by_cases hsizes : t.isSize = true ∧ k.isSize = true
  · cases t with
    | size m =>
      cases k with
      | size n =>
        rw [SymDim.covers_size.mp ht, SymDim.covers_size.mp hk]
        simp only [openDim, SymDim.value?]
        refine Outcome.follows_bind_same fun _ _ => ?_
        refine Outcome.follows_bind_same fun r _ => ?_
        refine Outcome.follows_bind_same fun _ _ => ?_
        exact Outcome.follows_bind_same fun q _ => Outcome.follows_ok rfl
      | unknown | param _ => simp [SymDim.isSize, SymDim.value?] at hsizes
    | unknown | param _ => simp [SymDim.isSize, SymDim.value?] at hsizes
  · have hopen : openDim t k =
        .ok (if t ≠ .unknown ∧ t = k then .size 1 else .unknown) := by
      cases t <;> cases k <;> simp_all [openDim, SymDim.isSize, SymDim.value?]
    rw [hopen]
    by_cases hsame : t ≠ .unknown ∧ t = k
    · rw [if_pos hsame]
      obtain ⟨hknown, rfl⟩ := hsame
      cases t with
      | unknown => exact absurd rfl hknown
      | size m => simp [SymDim.isSize, SymDim.value?] at hsizes
      | param p =>
        obtain ⟨m, hm, rfl⟩ := ht
        obtain ⟨n, hn, rfl⟩ := hk
        rw [hm] at hn
        cases hn
        simp only [openDim, SymDim.value?]
        refine Outcome.follows_bind_right fun _ hzero => ?_
        refine Outcome.follows_bind_right fun r _ => ?_
        refine Outcome.follows_bind_right fun _ _ => ?_
        rw [divInt_self (Outcome.refuseIf_eq_ok.mp hzero)]
        exact Outcome.follows_ok rfl
    · rw [if_neg hsame]
      exact SymDim.follows_unknown _

theorem getElem?_of_findIdx? {ds : List SymDim} {i : Nat}
    (h : ds.findIdx? (· == .size (-1)) = some i) : ds[i]? = some (.size (-1)) := by
  obtain ⟨hi, hopen, -⟩ := List.findIdx?_eq_some_iff_getElem.mp h
  rw [List.getElem?_eq_getElem hi]
  simpa using hopen

theorem exists_findIdx? {ds : List SymDim} {i : Nat} (h : ds[i]? = some (.size (-1))) :
    ∃ j, ds.findIdx? (· == .size (-1)) = some j := by
  cases hj : ds.findIdx? (· == .size (-1)) with
  | none =>
    have := List.findIdx?_eq_none_iff.mp hj _ (List.mem_of_getElem? h)
    simp at this
  | some j => exact ⟨j, rfl⟩

/-- An open size that only shows in the run cannot be inferred where some known size is zero. -/
theorem openDim_eraseIdx_refused {ds cs : List SymDim} {j : Nat} {t : SymDim} {m : Int64}
    (h : List.Forall₂ (SymDim.Covers names) ds cs) (hj : ds[j]? = some .unknown)
    (hzero : SymDim.size 0 ∈ ds) (ht : t.value? = some m) (d : SymDim) :
    openDim t (SymDim.product (cs.eraseIdx j)) ≠ .ok d := by
  obtain ⟨k, hk⟩ := List.getElem?_of_mem hzero
  have hne : k ≠ j := by
    rintro rfl
    simp [hk] at hj
  obtain ⟨e, he, hcov⟩ := Related.get_left h hk
  rw [SymDim.covers_size.mp hcov] at he
  have hmem : SymDim.size 0 ∈ cs.eraseIdx j := List.mem_eraseIdx_iff_getElem?.mpr ⟨k, hne, he⟩
  rw [SymDim.product_of_zero_mem hmem]
  have hknown : (SymDim.size 0).value? = some 0 := rfl
  simp [openDim, ht, hknown, Outcome.refuseIf]

/-- Element counts that inference knows are those of the run, which are compared in the same way. -/
theorem Covers.counted {s c : SymShape} (h : s.Covers names c) {dims dims' : List SymDim}
    (hdims : List.Forall₂ (SymDim.Covers names) dims dims') :
    Outcome.Follows (SymShape.Covers names)
      (do
        match s.count.value?, (SymDim.product dims).value? with
        | some m, some n => .refuseIf (m ≠ n) (.shape .reshapeCount)
        | _, _ => pure ()
        return .ranked dims : Outcome RuleError SymShape)
      (do
        match c.count.value?, (SymDim.product dims').value? with
        | some m, some n => .refuseIf (m ≠ n) (.shape .reshapeCount)
        | _, _ => pure ()
        return .ranked dims' : Outcome RuleError SymShape) := by
  have hdone := ranked_covers_ranked.mpr hdims
  have hcount := h.count.value?
  have hproduct := (SymDim.Covers.product hdims).value?
  cases hm : s.count.value? with
  | some m =>
    rw [hcount m hm]
    cases hn : (SymDim.product dims).value? with
    | some n =>
      rw [hproduct n hn]
      exact Outcome.follows_bind_same fun _ _ => Outcome.follows_ok hdone
    | none =>
      cases (SymDim.product dims').value? with
      | some n => exact Outcome.follows_bind_right fun _ _ => Outcome.follows_ok hdone
      | none => exact Outcome.follows_ok hdone
  | none =>
    cases c.count.value? with
    | none => exact Outcome.follows_ok hdone
    | some m =>
      cases (SymDim.product dims').value? with
      | some n => exact Outcome.follows_bind_right fun _ _ => Outcome.follows_ok hdone
      | none => exact Outcome.follows_ok hdone

/-- An open size that inference sees is inferred in the run from the sizes that the others cover. -/
theorem Covers.opened {s c : SymShape} (h : s.Covers names c) {allowZero : Bool} {i : Nat}
    {wanted wanted' dims dims' : List SymDim}
    (hw : List.Forall₂ (SymDim.Covers names) wanted wanted')
    (hdims : List.Forall₂ (SymDim.Covers names) dims dims') :
    Outcome.Follows (SymShape.Covers names)
      (do
        .refuseIf (allowZero && wanted.any (· == .size 0)) (.value .zeroAndPlaceholder)
        let d ← openDim s.count (SymDim.product (dims.eraseIdx i))
        return .ranked (dims.set i d) : Outcome RuleError SymShape)
      (do
        .refuseIf (allowZero && wanted'.any (· == .size 0)) (.value .zeroAndPlaceholder)
        let d ← openDim c.count (SymDim.product (dims'.eraseIdx i))
        return .ranked (dims'.set i d) : Outcome RuleError SymShape) := by
  have hzero : (allowZero && wanted.any (· == .size 0)) = true →
      (allowZero && wanted'.any (· == .size 0)) = true := by
    rw [Bool.and_eq_true, Bool.and_eq_true]
    refine And.imp_right (Related.any hw fun x y hxy hx => ?_)
    rw [beq_iff_eq] at hx ⊢
    exact SymDim.covers_size.mp (hx ▸ hxy)
  have hopen := openDim_follows h.count (SymDim.Covers.product (Related.eraseIdx hdims i))
  refine (Outcome.follows_refuseIf hzero).bind fun _ _ _ => hopen.bind fun d e hde => ?_
  exact Outcome.follows_ok (ranked_covers_ranked.mpr (Related.set hdims hde i))

/-- An entry that is open in the run alone is unknown to inference, as is the size that it is
inferred to. -/
theorem Covers.opened_right {s c : SymShape} (h : s.Covers names c) {dims dims' : List SymDim}
    {refused : Bool} {j : Nat} (hdims : List.Forall₂ (SymDim.Covers names) dims dims')
    (hj : dims[j]? = some .unknown) :
    Outcome.Follows (SymShape.Covers names)
      (do
        match s.count.value?, (SymDim.product dims).value? with
        | some m, some n => .refuseIf (m ≠ n) (.shape .reshapeCount)
        | _, _ => pure ()
        return .ranked dims : Outcome RuleError SymShape)
      (do
        .refuseIf refused (.value .zeroAndPlaceholder)
        let d ← openDim c.count (SymDim.product (dims'.eraseIdx j))
        return .ranked (dims'.set j d) : Outcome RuleError SymShape) := by
  have hset : ∀ d, (ranked dims).Covers names (ranked (dims'.set j d)) := fun d =>
    ranked_covers_ranked.mpr (Related.set_right hdims hj (SymDim.covers_unknown d))
  refine Outcome.follows_bind_right fun _ _ => ?_
  refine Outcome.follows_bind_right fun d hopen => ?_
  cases hm : s.count.value? with
  | none => exact Outcome.follows_ok (hset d)
  | some m =>
    cases hn : (SymDim.product dims).value? with
    | none => exact Outcome.follows_ok (hset d)
    | some n =>
      have hzero : SymDim.size 0 ∈ dims := by
        by_contra hzero
        rw [SymDim.product_of_unknown_mem (List.mem_of_getElem? hj) hzero] at hn
        simp [SymDim.value?] at hn
      exact absurd hopen (openDim_eraseIdx_refused hdims hj hzero (h.count.value? m hm) d)

/-- No size and no name of a target that is kept stands for an open entry. -/
theorem TargetKept.getElem?_eq_unknown {input : SymShape} {allowZero : Bool}
    {wanted wanted' : List SymDim} (hkept : TargetKept names input allowZero 0 wanted)
    (hw : List.Forall₂ (SymDim.Covers names) wanted wanted')
    (hi : wanted.findIdx? (· == .size (-1)) = none) {j : Nat}
    (hj : wanted'[j]? = some (.size (-1))) : wanted[j]? = some .unknown := by
  obtain ⟨d, hdj, hcov⟩ := Related.get_right hw hj
  cases d with
  | unknown => exact hdj
  | param p =>
    obtain ⟨n, hn, hopen⟩ := hcov
    cases hopen
    exact absurd rfl (hkept j p _ hdj hn).1
  | size n =>
    cases hcov
    obtain ⟨k, hk⟩ := exists_findIdx? hdj
    simp [hi] at hk

theorem Covers.reshape {s c t u : SymShape} (h : s.Covers names c) (ht : t.Covers names u)
    {allowZero : Bool}
    (hkept : ∀ wanted, t = ranked wanted → TargetKept names c allowZero 0 wanted) :
    Outcome.Follows (SymShape.Covers names) (s.reshape t allowZero) (c.reshape u allowZero) := by
  cases t with
  | unknown => exact follows_unknown _
  | ranked wanted =>
    obtain ⟨wanted', rfl, hw⟩ := ht
    refine (h.targetDims hw (hkept wanted rfl) id).bind_ok fun dims dims' hdims hd hd' => ?_
    cases hi : wanted.findIdx? (· == .size (-1)) with
    | some i =>
      obtain ⟨e, he, hopen⟩ := Related.get_left hw (getElem?_of_findIdx? hi)
      rw [SymDim.covers_size.mp hopen] at he
      obtain ⟨j, hj⟩ := exists_findIdx? he
      obtain rfl : i = j := targetDims_open_unique hd' he (getElem?_of_findIdx? hj)
      simp only [hj]
      exact h.opened hw hdims
    | none =>
      cases hj : wanted'.findIdx? (· == .size (-1)) with
      | none => exact h.counted hdims
      | some j =>
        have hunknown := (hkept wanted rfl).getElem?_eq_unknown hw hi (getElem?_of_findIdx? hj)
        obtain ⟨e, he, hopen⟩ := targetDims_getElem? hd hunknown
        cases hopen
        exact h.opened_right hdims he

end SymShape

end TensorGraph
