import TensorGraph.Proofs.Covering.Element
import TensorGraph.Symbolic.Extent

/-! What a description of a shape covers: any shape, or the shapes of its rank whose dimensions are
covered one by one. Combining descriptions covers combining what they cover. -/

namespace TensorGraph

namespace SymShape

variable {ε ε' : Type} {names : Names}

/-- Whether a shape is one that a description leaves possible, under sizes for names. -/
def Covers (names : Names) : SymShape → SymShape → Prop
  | unknown, _ => True
  | ranked ds, s => ∃ cs, s = ranked cs ∧ List.Forall₂ (SymDim.Covers names) ds cs

@[simp] theorem covers_unknown (s : SymShape) : unknown.Covers names s := trivial

@[simp] theorem ranked_covers_ranked {ds cs : List SymDim} :
    (ranked ds).Covers names (ranked cs) ↔ List.Forall₂ (SymDim.Covers names) ds cs := by
  simp [Covers]

theorem vector_of_covers {d : SymDim} {shape : Shape}
    (h : (ranked [d]).Covers names (.ofShape shape)) :
    ∃ n, shape = [n] ∧ d.Covers names (.ofSize n) := by
  obtain ⟨cs, hcs, hdims⟩ := h
  rw [ofShape, ranked.injEq] at hcs
  subst hcs
  rw [List.forall₂_map_right_iff] at hdims
  cases hdims with
  | cons hd hnil =>
    cases hnil
    exact ⟨_, rfl, hd⟩

theorem follows_unknown (y : Outcome ε' SymShape) :
    Outcome.Follows (SymShape.Covers names) (.ok unknown : Outcome ε SymShape) y :=
  fun c _ => .inr ⟨unknown, rfl, covers_unknown c⟩

theorem ofRank_covers (cs : List SymDim) : (ofRank cs.length).Covers names (ranked cs) :=
  ranked_covers_ranked.mpr (Related.replicate_left fun c _ => SymDim.covers_unknown c)

theorem ofRank_covers_ofRank (rank : Nat) : (ofRank rank).Covers names (ofRank rank) :=
  ranked_covers_ranked.mpr (Related.replicate (SymDim.covers_unknown _) rank)

theorem follows_ofLargeRank (rank : Nat) {s : SymShape} (h : (ofRank rank).Covers names s)
    {y : Outcome ε' SymShape} (hy : ∀ c, y = .ok c → c = s) :
    Outcome.Follows (SymShape.Covers names) (ofLargeRank rank : Outcome ε SymShape) y := by
  refine Outcome.follows_bind_left (by simp [checkRoom]) fun _ _ => ?_
  intro c hc
  rw [hy c hc]
  exact .inr ⟨ofRank rank, rfl, h⟩

theorem Covers.rank? {s c : SymShape} (h : s.Covers names c) : Told s.rank? c.rank? := by
  intro n hn
  cases s with
  | unknown => simp [SymShape.rank?, dims?] at hn
  | ranked ds =>
    obtain ⟨cs, rfl, hs⟩ := h
    simpa [SymShape.rank?, dims?, hs.length_eq] using hn

@[simp] theorem rank?_ranked (ds : List SymDim) : (ranked ds).rank? = some ds.length := rfl

@[simp] theorem rank?_ofShape (shape : Shape) : (ofShape shape).rank? = some shape.length := by
  simp [ofShape]

@[simp] theorem rank?_unknown : unknown.rank? = none := rfl

@[simp] theorem rank?_ofRank (n : Nat) : (ofRank n).rank? = some n := by
  simp [ofRank]

theorem ofRank_covers_of_rank? {c : SymShape} {n : Nat} (h : c.rank? = some n) :
    (ofRank n).Covers names c := by
  cases c with
  | unknown => simp at h
  | ranked cs =>
    rw [rank?_ranked, Option.some.injEq] at h
    exact h ▸ ofRank_covers cs

theorem Covers.rankOnly {s c r : SymShape} (h : s.Covers names c)
    (hr : ∀ n, c.rank? = some n → r.rank? = some n) :
    (s.rank?.elim .unknown ofRank).Covers names r := by
  cases hs : s.rank? with
  | none => exact covers_unknown _
  | some n => exact ofRank_covers_of_rank? (hr n (h.rank? n hs))

theorem Covers.count {s c : SymShape} (h : s.Covers names c) : s.count.Covers names c.count := by
  cases s with
  | unknown => exact SymDim.covers_unknown _
  | ranked ds =>
    obtain ⟨cs, rfl, hs⟩ := h
    exact SymDim.Covers.product hs

theorem Covers.dim {s c : SymShape} (h : s.Covers names c) (i : Nat) :
    (s.dim i).Covers names (c.dim i) := by
  cases s with
  | unknown =>
    have hu : unknown.dim i = .unknown := by simp [SymShape.dim, dims, dims?]
    rw [hu]
    exact SymDim.covers_unknown _
  | ranked ds =>
    obtain ⟨cs, rfl, hs⟩ := h
    exact Related.getD hs (SymDim.covers_unknown _) i

theorem Covers.setDim {s c : SymShape} (h : s.Covers names c) {d e : SymDim}
    (hd : d.Covers names e) (i : Nat) : (s.setDim i d).Covers names (c.setDim i e) := by
  cases s with
  | unknown => exact covers_unknown _
  | ranked ds =>
    obtain ⟨cs, rfl, hs⟩ := h
    exact ranked_covers_ranked.mpr (Related.set hs hd i)

theorem Covers.declareRank {s c : SymShape} (h : s.Covers names c) (rank : Nat) :
    Outcome.Follows (SymShape.Covers names) (s.declareRank rank) (c.declareRank rank) := by
  cases s with
  | ranked ds =>
    obtain ⟨cs, rfl, hs⟩ := h
    by_cases hrank : cs.length = rank
    · simpa [SymShape.declareRank, hs.length_eq, hrank] using
        Outcome.follows_ok (ranked_covers_ranked.mpr hs)
    · simpa [SymShape.declareRank, hs.length_eq, hrank] using Outcome.follows_error _ _
  | unknown =>
    cases c with
    | unknown =>
      refine follows_ofLargeRank rank (ofRank_covers_ofRank rank) fun c hc => ?_
      simp only [SymShape.declareRank, ofLargeRank, Outcome.bind_eq_ok, Outcome.pure_eq] at hc
      obtain ⟨-, -, hc⟩ := hc
      cases hc
      rfl
    | ranked cs =>
      by_cases hrank : cs.length = rank
      · subst hrank
        refine follows_ofLargeRank _ (ofRank_covers cs) fun c hc => ?_
        simpa [SymShape.declareRank, eq_comm] using hc
      · simpa [SymShape.declareRank, hrank] using Outcome.follows_error _ _

theorem Covers.demandRank {s c : SymShape} (h : s.Covers names c) (least : Nat) :
    Outcome.Follows (fun _ _ => True) (s.demandRank least) (c.demandRank least) :=
  Outcome.follows_refuseIf h.rank?.any

theorem refine_ranked {cs ds : List SymDim} {r : SymShape}
    (h : (ranked cs).refine (ranked ds) = .ok r) : cs.length = ds.length ∧
      ∃ rs, r = ranked rs ∧ List.Forall₂ (fun p r => p.1.refine p.2 = .ok r) (cs.zip ds) rs := by
  simp only [refine, Outcome.bind_eq_ok, Outcome.refuseIf_eq_ok, not_not, Outcome.pure_eq,
    Outcome.ok.injEq] at h
  obtain ⟨-, hlen, rs, hrs, rfl⟩ := h
  exact ⟨hlen, rs, rfl, Outcome.mapM_eq_ok.mp hrs⟩

theorem Covers.refined_left {s c d r : SymShape} (h : s.Covers names c)
    (hr : c.refine d = .ok r) : s.Covers names r := by
  cases s with
  | unknown => exact covers_unknown r
  | ranked as =>
    obtain ⟨cs, rfl, hs⟩ := h
    cases d with
    | unknown =>
      cases hr
      exact ranked_covers_ranked.mpr hs
    | ranked ds =>
      obtain ⟨hlen, rs, rfl, hrs⟩ := refine_ranked hr
      refine ranked_covers_ranked.mpr (Related.trans hs (Related.of_zip_left hlen hrs) ?_)
      rintro a b c hab ⟨b', hc⟩
      exact hab.refined_left hc

theorem Covers.refined_right {s c d r : SymShape} (h : s.Covers names d)
    (hr : c.refine d = .ok r) : s.Covers names r := by
  cases s with
  | unknown => exact covers_unknown r
  | ranked as =>
    obtain ⟨ds, rfl, hs⟩ := h
    cases c with
    | unknown =>
      cases hr
      exact ranked_covers_ranked.mpr hs
    | ranked cs =>
      obtain ⟨hlen, rs, rfl, hrs⟩ := refine_ranked hr
      refine ranked_covers_ranked.mpr (Related.trans hs (Related.of_zip_right hlen hrs) ?_)
      rintro a b c hab ⟨b', hc⟩
      exact hab.refined_right hc

theorem Covers.refine {s t c d : SymShape} (h : s.Covers names c) (h' : t.Covers names d) :
    Outcome.Follows (SymShape.Covers names) (s.refine t) (c.refine d) := by
  cases s with
  | unknown => exact fun r hr => .inr ⟨t, by cases t <;> rfl, h'.refined_right hr⟩
  | ranked as =>
    cases t with
    | unknown => exact fun r hr => .inr ⟨ranked as, rfl, h.refined_left hr⟩
    | ranked bs =>
      obtain ⟨cs, rfl, hs⟩ := h
      obtain ⟨ds, rfl, ht⟩ := h'
      have hlen : as.length ≠ bs.length → cs.length ≠ ds.length := by
        rw [hs.length_eq, ht.length_eq]
        exact id
      refine (Outcome.follows_refuseIf hlen).bind fun _ _ _ => ?_
      refine (Outcome.follows_mapM (R := SymDim.Covers names) (Related.zip hs ht)
        fun _ _ hxy => hxy.1.refine hxy.2).bind fun rs us hrs => ?_
      exact Outcome.follows_ok (ranked_covers_ranked.mpr hrs)

theorem padded_covers {ds cs : List SymDim} (h : List.Forall₂ (SymDim.Covers names) ds cs)
    (rank : Nat) : List.Forall₂ (SymDim.Covers names)
      (List.replicate (rank - ds.length) (.size 1) ++ ds)
      (List.replicate (rank - cs.length) (.size 1) ++ cs) := by
  rw [h.length_eq]
  have hone : (SymDim.size 1).Covers names (.size 1) := rfl
  exact Related.append (Related.replicate hone _) h

theorem Covers.broadcastPair {s t c d : SymShape} (h : s.Covers names c) (h' : t.Covers names d) :
    Outcome.Follows (SymShape.Covers names) (s.broadcastPair t) (c.broadcastPair d) := by
  cases s with
  | unknown => exact follows_unknown _
  | ranked as =>
    obtain ⟨cs, rfl, hs⟩ := h
    cases t with
    | unknown => exact follows_unknown _
    | ranked bs =>
      obtain ⟨ds, rfl, ht⟩ := h'
      have hrank : max as.length bs.length = max cs.length ds.length := by
        rw [hs.length_eq, ht.length_eq]
      simp only [SymShape.broadcastPair, hrank]
      refine (Outcome.follows_mapM (R := SymDim.Covers names) (Related.zip (padded_covers hs _)
        (padded_covers ht _)) fun _ _ hxy => hxy.1.broadcast hxy.2).bind fun rs us hrs => ?_
      exact Outcome.follows_ok (ranked_covers_ranked.mpr hrs)

theorem broadcast_follows {ss cs : List SymShape} (h : List.Forall₂ (SymShape.Covers names) ss cs) :
    Outcome.Follows (SymShape.Covers names) (SymShape.broadcast ss) (SymShape.broadcast cs) :=
  Outcome.follows_foldlM h (fun _ _ _ _ hcd hxy => hcd.broadcastPair hxy)
    (ranked_covers_ranked.mpr .nil)

theorem broadcast_ranked {ss : List SymShape} {r : SymShape} (hs : ∀ s ∈ ss, ∃ ds, s = ranked ds)
    (h : SymShape.broadcast ss = .ok r) : ∃ rs, r = ranked rs := by
  refine Outcome.foldlM_keeps (P := fun s => ∃ ds, s = ranked ds) ?_ ⟨[], rfl⟩ h
  rintro s t u hu ⟨ds, rfl⟩ ht
  obtain ⟨es, rfl⟩ := hs u hu
  obtain ⟨rs, -, ht⟩ := Outcome.bind_eq_ok.mp ht
  exact ⟨rs, (Outcome.ok.inj ht).symm⟩

theorem filterMap_dropped (cs : List SymDim) : (cs.zipIdx.filterMap fun (d, i) =>
    if !(List.range cs.length).contains i then some d else none) = [] := by
  rw [List.filterMap_eq_nil_iff]
  rintro ⟨d, i⟩ hd
  have hi := (List.mem_zipIdx' hd).1
  simp [hi]

theorem reduce_all (cs : List SymDim) :
    (ranked cs).reduce none false = .ok scalar := by
  simp only [reduce, Outcome.ok_bind, Outcome.pure_eq]
  simpa [scalar] using filterMap_dropped cs

theorem kept_covers {ds cs : List SymDim} (h : List.Forall₂ (SymDim.Covers names) ds cs)
    (reduced : List Nat) (keep : Bool) : List.Forall₂ (SymDim.Covers names)
      (ds.zipIdx.filterMap fun (d, i) =>
        if !reduced.contains i then some d else if keep then some (.size 1) else none)
      (cs.zipIdx.filterMap fun (d, i) =>
        if !reduced.contains i then some d else if keep then some (.size 1) else none) := by
  refine Related.filterMap (Related.zipIdx h 0) ?_
  rintro ⟨d, i⟩ ⟨c, j⟩ ⟨hd, rfl⟩
  have hone : (SymDim.size 1).Covers names (.size 1) := rfl
  by_cases hi : (!reduced.contains i) = true
  · simpa only [hi, if_true] using .some hd
  · cases keep
    · simpa only [hi] using .none
    · simpa only [hi] using .some hone

theorem Covers.reduce {s c : SymShape} (h : s.Covers names c) (axes : Option (List Int64))
    (keep : Bool) :
    Outcome.Follows (SymShape.Covers names) (s.reduce axes keep) (c.reduce axes keep) := by
  cases s with
  | unknown =>
    by_cases hall : (!keep && axes.isNone) = true
    · have hk : keep = false := by simp_all
      have ha : axes = none := by simp_all
      subst hk ha
      cases c with
      | unknown => exact Outcome.follows_ok (ranked_covers_ranked.mpr .nil)
      | ranked cs =>
        rw [reduce_all]
        exact Outcome.follows_ok (ranked_covers_ranked.mpr .nil)
    · simpa [SymShape.reduce, hall] using follows_unknown _
  | ranked ds =>
    obtain ⟨cs, rfl, hs⟩ := h
    cases axes with
    | none =>
      simp only [SymShape.reduce, hs.length_eq, Outcome.ok_bind]
      exact Outcome.follows_ok (ranked_covers_ranked.mpr (kept_covers hs _ keep))
    | some axes =>
      simp only [SymShape.reduce, hs.length_eq]
      refine Outcome.follows_bind_same fun reduced _ => ?_
      exact Outcome.follows_ok (ranked_covers_ranked.mpr (kept_covers hs reduced keep))

theorem Covers.pad {s c : SymShape} (h : s.Covers names c) {pads pads' : List (Option Int64)}
    (hp : List.Forall₂ Told pads pads') :
    Outcome.Follows (SymShape.Covers names) (s.pad pads) (c.pad pads') := by
  cases s with
  | ranked ds =>
    obtain ⟨cs, rfl, hs⟩ := h
    have hcount : pads.length ≠ ds.length * 2 → pads'.length ≠ cs.length * 2 := by
      rw [hs.length_eq, hp.length_eq]
      exact id
    have hends : List.Forall₂ (fun a b => Told a.1 b.1 ∧ Told a.2 b.2)
        ((pads.take ds.length).zip (pads.drop ds.length))
        ((pads'.take cs.length).zip (pads'.drop cs.length)) := by
      rw [hs.length_eq]
      exact Related.zip (List.forall₂_take _ hp) (List.forall₂_drop _ hp)
    refine (Outcome.follows_refuseIf hcount).bind fun _ _ _ => ?_
    refine (Outcome.follows_mapM (R := SymDim.Covers names) (Related.zip hs hends)
      fun _ _ hxy => hxy.1.pad hxy.2.1 hxy.2.2).bind fun rs us hrs => ?_
    exact Outcome.follows_ok (ranked_covers_ranked.mpr hrs)
  | unknown =>
    cases c with
    | unknown =>
      rw [SymShape.pad, SymShape.pad, hp.length_eq]
      exact Outcome.follows_bind_same fun _ _ => Outcome.follows_ok (ofRank_covers_ofRank _)
    | ranked cs =>
      refine Outcome.follows_bind_right fun _ hcount => ?_
      refine Outcome.follows_bind_right fun rs hrs => ?_
      rw [Outcome.refuseIf_eq_ok, not_not] at hcount
      have hlen : rs.length = cs.length := by
        have := (Outcome.mapM_eq_ok.mp hrs).length_eq
        simp at this
        omega
      have heven : ¬pads.length % 2 ≠ 0 := by rw [hp.length_eq]; omega
      have hhalf : pads.length / 2 = rs.length := by rw [hp.length_eq]; omega
      rw [SymShape.pad, Outcome.refuseIf, if_neg heven, hhalf]
      exact Outcome.follows_ok (ofRank_covers rs)

theorem Covers.tile {s c : SymShape} (h : s.Covers names c) {rs rs' : List SymDim}
    (hr : List.Forall₂ (SymDim.Covers names) rs rs') :
    Outcome.Follows (SymShape.Covers names) (s.tile rs) (c.tile rs') := by
  refine (Outcome.follows_refuseIf (Related.any hr fun _ _ hxy => hxy.value?.any)).bind
    fun _ _ _ => ?_
  cases s with
  | unknown =>
    rw [hr.length_eq]
    cases c with
    | unknown => exact Outcome.follows_ok (ofRank_covers_ofRank _)
    | ranked cs =>
      refine Outcome.follows_bind_right fun _ hcount => ?_
      rw [Outcome.refuseIf_eq_ok, not_not] at hcount
      have hlen : (List.zipWith (· * ·) cs rs').length = rs'.length := by simp [hcount]
      exact Outcome.follows_ok (hlen ▸ ofRank_covers _)
  | ranked ds =>
    obtain ⟨cs, rfl, hs⟩ := h
    have hcount : rs.length ≠ ds.length → rs'.length ≠ cs.length := by
      rw [hs.length_eq, hr.length_eq]
      exact id
    refine (Outcome.follows_refuseIf hcount).bind fun _ _ _ => ?_
    exact Outcome.follows_ok (ranked_covers_ranked.mpr
      (Related.zipWith hs hr fun _ _ _ _ hd hd' => hd.mul hd'))

end SymShape

end TensorGraph
