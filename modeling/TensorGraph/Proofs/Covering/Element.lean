import TensorGraph.Proofs.Bits
import TensorGraph.Proofs.Follows
import TensorGraph.Proofs.Related
import TensorGraph.Proofs.Words
import TensorGraph.Symbolic.Element
import TensorGraph.Symbolic.Extent
import TensorGraph.Symbolic.Slice

/-! What a description of a size covers: the size itself, the size that a name stands for, or any
size. Arithmetic on descriptions covers the arithmetic on what they cover. The elements of a
tensor are given as integers or bits, and a name stands for the same integer as it does in a
shape. -/

namespace TensorGraph

/-- The 64-bit integers that names stand for. -/
abbrev Names := String → Option Int64

namespace SliceRange

theorem hold_forward {ε : Type} {dim bound first : Int64}
    (h : (hold dim 1 bound : Outcome ε Int64) = .ok first) :
    0 ≤ dim ∧ first = if bound < 0 then 0 else if bound > dim then dim else bound := by
  have hone : (1 : Int64) > 0 := by decide
  simp only [hold, hone, if_true, clampInt] at h
  obtain ⟨u, hdim, hfirst⟩ := Outcome.bind_eq_ok.mp h
  rw [Outcome.demand_eq_ok] at hdim
  simp only [Outcome.pure_eq, Outcome.ok.injEq] at hfirst
  exact ⟨hdim, hfirst.symm⟩

/-- As many single steps lead over a distance as it is long. -/
theorem stepCount_one {ε : Type} {span len : Int64} (hspan : 0 ≤ span)
    (h : (stepCount span 1 : Outcome ε Int64) = .ok len) : len = span := by
  have hspan' : 0 ≤ span.toInt := by simpa [Int64.le_iff_toInt_le] using hspan
  have hone : (1 : Int64) > 0 := by decide
  have hone' : (1 : Int64).toInt = 1 := rfl
  by_cases hpos : span > 0
  · simp only [stepCount, hpos, hone, and_self, true_or, if_true, divInt, absInt] at h
    simp only [Outcome.bind_eq_ok] at h
    obtain ⟨a, ha, b, hb, sum, hsum, sum', hsum', -, -, hlen⟩ := h
    have ha' := toInt_of_checkInt ha
    have hb' := toInt_of_checkInt hb
    have hs := toInt_of_checkInt hsum
    have hs' := toInt_of_checkInt hsum'
    have hb1 : b.toInt = 1 := by simpa [hone'] using hb'
    refine eq_of_checkInt hlen ?_
    rw [hb1, Int.tdiv_one]
    omega
  · have hneg : ¬span < 0 := by simpa using hspan
    have hzero : span = 0 := by
      rw [gt_iff_lt, Int64.lt_iff_toInt_lt, Int64.toInt_zero] at hpos
      exact Int64.toInt_inj.mp (by rw [Int64.toInt_zero]; omega)
    simp only [stepCount, hpos, hneg, false_and, or_self, if_false, Outcome.pure_eq,
      Outcome.ok.injEq] at h
    rw [hzero, ← h]

theorem intOfSize_len_resolve {n : Int64} {r : SliceRange}
    (h : resolve n 0 Int64.maxValue 1 = .ok r) : intOfSize r.len = n := by
  simp only [resolve, Outcome.bind_eq_ok, Outcome.refuseIf_eq_ok, Outcome.pure_eq] at h
  obtain ⟨-, -, first, hfirst, last, hlast, span, hspan, len, hlen, hr⟩ := h
  cases hr
  obtain ⟨hn, hfirst⟩ := hold_forward hfirst
  obtain ⟨-, hlast⟩ := hold_forward hlast
  have hzero : first = 0 := by
    have hneg : ¬(0 : Int64) > n := by simpa using hn
    simpa [fromEnd, hneg] using hfirst
  have hend : last = n := by
    have hmax : ¬Int64.maxValue < 0 := by decide
    have htop : n ≤ Int64.maxValue := Int64.le_maxValue n
    simp only [fromEnd, hmax, if_false] at hlast
    by_cases hlt : Int64.maxValue > n
    · simpa [hlt] using hlast
    · simp only [hlt, if_false] at hlast
      exact hlast.trans (Int64.le_antisymm (by simpa using hlt) htop)
  subst hzero hend
  have hwhole : span = last := eq_of_checkInt hspan (by simp)
  rw [hwhole] at hlen
  rw [stepCount_one hn hlen]
  exact intOfSize_sizeOfInt last

end SliceRange

namespace SymDim

variable {ε ε' : Type} {names : Names}

/-- Whether a dimension is one that a description leaves possible, under sizes for names. -/
def Covers (names : Names) : SymDim → SymDim → Prop
  | unknown, _ => True
  | size n, c => c = size n
  | param p, c => ∃ n, names p = some n ∧ c = size n

@[simp] theorem covers_unknown (c : SymDim) : unknown.Covers names c := trivial

@[simp] theorem covers_size {n : Int64} {c : SymDim} : (size n).Covers names c ↔ c = size n := .rfl

@[simp] theorem covers_size_self (n : Int64) : (size n).Covers names (size n) := rfl

@[simp] theorem covers_ofSize (n : Nat) : (ofSize n).Covers names (ofSize n) := rfl

theorem covers_ofOption (o : Option Int64) : (ofOption o).Covers names (ofOption o) := by
  cases o <;> simp [ofOption]

/-- A description covers a dimension of which nothing is known only if it tells nothing. -/
theorem Covers.eq_unknown {d : SymDim} (h : d.Covers names unknown) : d = unknown := by
  cases d with
  | unknown => rfl
  | param p =>
    obtain ⟨n, -, hn⟩ := h
    cases hn
  | size n => cases h

theorem Covers.value? {d c : SymDim} (h : d.Covers names c) : Told d.value? c.value? := by
  intro n hn
  cases d with
  | size m =>
    rw [covers_size] at h
    rw [h]
    exact hn
  | unknown | param _ => simp [SymDim.value?] at hn

theorem size_zero_add (c : SymDim) : size 0 + c = c := by
  change add (size 0) c = c
  cases c with
  | size n =>
    by_cases hn : n = 0
    · simp [add, hn]
    · simp [add, hn, addInt?_zero_left, ofOption]
  | unknown | param _ => simp [add]

theorem Covers.add {d d' c c' : SymDim} (h : d.Covers names c) (h' : d'.Covers names c') :
    (d + d').Covers names (c + c') := by
  change (SymDim.add d d').Covers names (SymDim.add c c')
  cases d' with
  | size n =>
    rw [covers_size] at h'
    subst h'
    by_cases hn : n = 0
    · simpa [SymDim.add, hn] using h
    · cases d with
      | size m =>
        rw [covers_size] at h
        subst h
        simpa [SymDim.add, hn] using covers_ofOption _
      | unknown | param _ => simp [SymDim.add, hn]
  | unknown | param _ =>
    cases d with
    | size m =>
      rw [covers_size] at h
      subst h
      by_cases hm : m = 0
      · subst hm
        have hc := size_zero_add c'
        change SymDim.add (size 0) c' = c' at hc
        rw [hc]
        simp [SymDim.add, h']
      · simp [SymDim.add, hm]
    | unknown | param _ => simp [SymDim.add]

theorem Covers.sub {d d' c c' : SymDim} (h : d.Covers names c) (h' : d'.Covers names c') :
    (d - d').Covers names (c - c') := by
  change (SymDim.sub d d').Covers names (SymDim.sub c c')
  cases d' with
  | size n =>
    rw [covers_size] at h'
    subst h'
    by_cases hn : n = 0
    · simpa [SymDim.sub, hn] using h
    · cases d with
      | size m =>
        rw [covers_size] at h
        subst h
        simpa [SymDim.sub, hn] using covers_ofOption _
      | unknown | param _ => simp [SymDim.sub, hn]
  | unknown => cases d <;> simp [SymDim.sub]
  | param q =>
    cases d with
    | param p =>
      by_cases hpq : p = q
      · subst hpq
        obtain ⟨n, hn, rfl⟩ := h
        obtain ⟨m, hm, rfl⟩ := h'
        rw [hn] at hm
        cases hm
        by_cases hz : n = 0 <;> simp [SymDim.sub, hz, subInt?_self, ofOption]
      · simp [SymDim.sub, hpq]
    | unknown | size _ => simp [SymDim.sub]

theorem Covers.mul {d d' c c' : SymDim} (h : d.Covers names c) (h' : d'.Covers names c') :
    (d * d').Covers names (c * c') := by
  change (SymDim.mul d d').Covers names (SymDim.mul c c')
  by_cases hone' : d' = size 1
  · subst hone'
    rw [covers_size] at h'
    simpa [SymDim.mul, h'] using h
  by_cases hone : d = size 1
  · subst hone
    rw [covers_size] at h
    subst h
    by_cases hc : c' = size 1
    · subst hc
      simpa [SymDim.mul, hone'] using h'
    · simpa [SymDim.mul, hone', hc] using h'
  by_cases hzero : d = size 0 ∨ d' = size 0
  · have hc : c = size 0 ∨ c' = size 0 := by
      rcases hzero with rfl | rfl
      · exact .inl h
      · exact .inr h'
    have hz : SymDim.mul c c' = size 0 := by
      simp only [SymDim.mul]
      split_ifs with h1 h2
      · rcases hc with hc | hc
        · exact hc
        · simp [h1] at hc
      · rcases hc with hc | hc
        · simp [h2] at hc
        · exact hc
      · rfl
    rw [hz]
    simp [SymDim.mul, hone, hone', hzero]
  cases d with
  | size m =>
    cases d' with
    | size n =>
      rw [covers_size] at h h'
      subst h h'
      simp only [SymDim.mul, hone, hone', hzero, if_false]
      exact covers_ofOption _
    | unknown | param _ => simp only [SymDim.mul, hone, hone', hzero, if_false, covers_unknown]
  | unknown | param _ => simp only [SymDim.mul, hone, hone', hzero, if_false, covers_unknown]

theorem follows_unknown (y : Outcome ε' SymDim) :
    Outcome.Follows (SymDim.Covers names) (.ok unknown : Outcome ε SymDim) y :=
  fun c _ => .inr ⟨unknown, rfl, covers_unknown c⟩

theorem Covers.floorDiv {d d' c c' : SymDim} (h : d.Covers names c) (h' : d'.Covers names c') :
    Outcome.Follows (SymDim.Covers names) (d.floorDiv d' : Outcome ε SymDim)
      (c.floorDiv c' : Outcome ε SymDim) := by
  cases d' with
  | size n =>
    rw [covers_size] at h'
    subst h'
    by_cases hn : n = 1
    · simpa [SymDim.floorDiv, hn] using Outcome.follows_ok h
    · cases d with
      | size m =>
        rw [covers_size] at h
        subst h
        by_cases hz : n = 0
        · simpa [SymDim.floorDiv, hz] using follows_unknown _
        · simp only [SymDim.floorDiv, hn, hz, if_false]
          exact Outcome.follows_bind_same fun q _ => Outcome.follows_ok rfl
      | unknown | param _ =>
        simp only [SymDim.floorDiv, hn, if_false]
        exact follows_unknown _
  | unknown | param _ => exact follows_unknown _

theorem Covers.ceilDiv {d d' c c' : SymDim} (h : d.Covers names c) (h' : d'.Covers names c') :
    Outcome.Follows (SymDim.Covers names) (d.ceilDiv d' : Outcome ε SymDim)
      (c.ceilDiv c' : Outcome ε SymDim) := by
  cases d' with
  | size n =>
    rw [covers_size] at h'
    subst h'
    by_cases hn : n = 1
    · simpa [SymDim.ceilDiv, hn] using Outcome.follows_ok h
    · cases d with
      | size m =>
        rw [covers_size] at h
        subst h
        by_cases hz : n = 0
        · simpa [SymDim.ceilDiv, hz] using follows_unknown _
        · simp only [SymDim.ceilDiv, hn, hz, if_false]
          refine Outcome.follows_bind_same fun m _ => ?_
          refine Outcome.follows_bind_same fun q _ => ?_
          exact Outcome.follows_bind_same fun r _ => Outcome.follows_ok rfl
      | unknown | param _ =>
        simp only [SymDim.ceilDiv, hn, if_false]
        exact follows_unknown _
  | unknown | param _ => exact follows_unknown _

theorem eq_of_refine_left {n : Int64} {c r : SymDim} (h : (size n).refine c = .ok r) :
    r = size n := by
  cases c with
  | size m =>
    by_cases hnm : n = m
    · simpa [refine, hnm, eq_comm] using h
    · simp [refine, hnm] at h
  | unknown | param _ => simpa [refine, eq_comm] using h

theorem eq_of_refine_right {n : Int64} {c r : SymDim} (h : c.refine (size n) = .ok r) :
    r = size n := by
  cases c with
  | size m =>
    by_cases hnm : m = n
    · simpa [refine, hnm, eq_comm] using h
    · simp [refine, hnm] at h
  | unknown | param _ => simpa [refine, eq_comm] using h

theorem Covers.refined_left {d c c' r : SymDim} (h : d.Covers names c)
    (hr : c.refine c' = .ok r) : d.Covers names r := by
  cases d with
  | unknown => exact covers_unknown r
  | size n =>
    rw [covers_size.mp h] at hr
    exact eq_of_refine_left hr
  | param p =>
    obtain ⟨n, hn, rfl⟩ := h
    exact ⟨n, hn, eq_of_refine_left hr⟩

theorem Covers.refined_right {d c c' r : SymDim} (h : d.Covers names c')
    (hr : c.refine c' = .ok r) : d.Covers names r := by
  cases d with
  | unknown => exact covers_unknown r
  | size n =>
    rw [covers_size.mp h] at hr
    exact eq_of_refine_right hr
  | param p =>
    obtain ⟨n, hn, rfl⟩ := h
    exact ⟨n, hn, eq_of_refine_right hr⟩

theorem Covers.refine {d d' c c' : SymDim} (h : d.Covers names c) (h' : d'.Covers names c') :
    Outcome.Follows (SymDim.Covers names) (d.refine d') (c.refine c') := by
  intro r hr
  have hd := h.refined_left hr
  have hd' := h'.refined_right hr
  cases d with
  | size n =>
    cases d' with
    | size m =>
      rw [covers_size.mp h, covers_size.mp h'] at hr
      exact .inr ⟨r, hr, covers_size.mp hd ▸ rfl⟩
    | unknown | param _ => exact .inr ⟨size n, rfl, hd⟩
  | param p =>
    cases d' with
    | size m => exact .inr ⟨size m, rfl, hd'⟩
    | unknown | param _ => exact .inr ⟨param p, rfl, hd⟩
  | unknown => cases d' <;> exact .inr ⟨_, rfl, hd'⟩

theorem Covers.broadcast {d d' c c' : SymDim} (h : d.Covers names c) (h' : d'.Covers names c') :
    Outcome.Follows (SymDim.Covers names) (d.broadcast d') (c.broadcast c') := by
  by_cases hone : d = size 1
  · subst hone
    rw [covers_size] at h
    subst h
    simpa [SymDim.broadcast] using Outcome.follows_ok h'
  by_cases hone' : d' = size 1
  · subst hone'
    rw [covers_size] at h'
    subst h'
    by_cases hc : c = size 1
    · simpa [SymDim.broadcast, hone, hc] using Outcome.follows_ok (hc ▸ h)
    · simpa [SymDim.broadcast, hone, hc] using Outcome.follows_ok h
  cases d with
  | size m =>
    cases d' with
    | size n =>
      rw [covers_size] at h h'
      subst h h'
      by_cases hmn : m = n
      · have hd : (size n).Covers names (size n) := rfl
        simpa [SymDim.broadcast, hone, hone', hmn] using Outcome.follows_ok hd
      · simpa [SymDim.broadcast, hone, hone', hmn] using Outcome.follows_error _ _
    | unknown | param _ => simpa [SymDim.broadcast, hone] using follows_unknown _
  | unknown => simpa [SymDim.broadcast, hone'] using follows_unknown _
  | param p =>
    cases d' with
    | param q =>
      by_cases hpq : p = q
      · subst hpq
        obtain ⟨n, hn, rfl⟩ := h
        obtain ⟨m, hm, rfl⟩ := h'
        rw [hn] at hm
        cases hm
        have hd : (param p).Covers names (size n) := ⟨n, hn, rfl⟩
        by_cases hs : n = 1
        · subst hs
          simpa [SymDim.broadcast] using Outcome.follows_ok hd
        · simpa [SymDim.broadcast, hs] using Outcome.follows_ok hd
      · simpa [SymDim.broadcast, hpq] using follows_unknown _
    | unknown | size _ => simpa [SymDim.broadcast, hone'] using follows_unknown _

theorem Covers.product {ds cs : List SymDim} (h : List.Forall₂ (SymDim.Covers names) ds cs) :
    (SymDim.product ds).Covers names (SymDim.product cs) := by
  have hfold : ∀ d c : SymDim, d.Covers names c →
      (ds.foldl (· * ·) d).Covers names (cs.foldl (· * ·) c) := by
    induction h with
    | nil => exact fun _ _ hdc => hdc
    | cons hxy _ ih => exact fun d c hdc => ih _ _ (hdc.mul hxy)
  exact hfold _ _ rfl

theorem Covers.total {ds cs : List SymDim} (h : List.Forall₂ (SymDim.Covers names) ds cs) :
    (SymDim.total ds).Covers names (SymDim.total cs) := by
  have hfold : ∀ d c : SymDim, d.Covers names c →
      (ds.foldl (· + ·) d).Covers names (cs.foldl (· + ·) c) := by
    induction h with
    | nil => exact fun _ _ hdc => hdc
    | cons hxy _ ih => exact fun d c hdc => ih _ _ (hdc.add hxy)
  exact hfold _ _ rfl

theorem Covers.slice {d c : SymDim} (h : d.Covers names c)
    {start stop step start' stop' step' : Option Int64} (hstart : Told start start')
    (hstop : Told stop stop') (hstep : Told step step') :
    Outcome.Follows (SymDim.Covers names) (d.slice start stop step)
      (c.slice start' stop' step') := by
  refine (Outcome.follows_refuseIf (hstep 0)).bind fun _ _ _ => ?_
  cases start with
  | none => cases d <;> exact follows_unknown _
  | some first =>
    cases stop with
    | none => cases d <;> exact follows_unknown _
    | some last =>
      cases step with
      | none => cases d <;> exact follows_unknown _
      | some step =>
        rw [hstart first rfl, hstop last rfl, hstep step rfl]
        cases c with
        | size n =>
          cases d with
          | size m =>
            rw [covers_size] at h
            cases h
            exact Outcome.follows_bind_same fun r _ => Outcome.follows_ok rfl
          | unknown | param _ =>
            refine Outcome.follows_bind_right fun r hr => Outcome.follows_ok ?_
            split_ifs with hfull
            · obtain ⟨rfl, rfl, rfl⟩ := hfull
              rw [ofSize, SliceRange.intOfSize_len_resolve hr]
              exact h
            · exact covers_unknown _
        | unknown | param _ =>
          cases d with
          | size m => cases h
          | unknown | param _ =>
            refine Outcome.follows_ok ?_
            split_ifs
            · exact h
            · exact covers_unknown _

theorem Covers.pad {d c : SymDim} (h : d.Covers names c) {start stop start' stop' : Option Int64}
    (hstart : Told start start') (hstop : Told stop stop') :
    Outcome.Follows (SymDim.Covers names) (d.pad start stop) (c.pad start' stop') := by
  cases start with
  | none => exact follows_unknown _
  | some first =>
    cases stop with
    | none => exact follows_unknown _
    | some last =>
      rw [hstart first rfl, hstop last rfl]
      refine Outcome.follows_bind_same fun total _ => ?_
      have hpadded := @Covers.add _ _ (size total) _ (size total) h rfl
      refine (Outcome.follows_refuseIf hpadded.value?.any).bind fun _ _ _ => ?_
      exact Outcome.follows_ok hpadded

end SymDim

end TensorGraph

namespace TensorGraph.SymElement

variable {names : Names} {a b : SymElement} {x y : Int64}

/-- Whether an element is one that a description leaves possible, under integers for names. -/
def Covers (names : Names) : SymElement → SymElement → Prop
  | unknown, _ => True
  | int n, c => c = int n
  | float bits, c => c = float bits
  | param p, c => ∃ n, names p = some n ∧ c = int n

@[simp] theorem covers_unknown (c : SymElement) : unknown.Covers names c := trivial

@[simp] theorem covers_int {n : Int64} {c : SymElement} : (int n).Covers names c ↔ c = int n := .rfl

@[simp] theorem covers_float {bits : UInt32} {c : SymElement} :
    (float bits).Covers names c ↔ c = float bits := .rfl

theorem covers_param {p : String} {c : SymElement} :
    (param p).Covers names c ↔ ∃ n, names p = some n ∧ c = int n := .rfl

theorem Covers.toDim {e c : SymElement} (h : e.Covers names c) : e.toDim.Covers names c.toDim := by
  cases e with
  | unknown | float _ => exact SymDim.covers_unknown _
  | int n =>
    rw [covers_int.mp h]
    rfl
  | param p =>
    obtain ⟨n, hn, rfl⟩ := h
    exact ⟨n, hn, rfl⟩

theorem covers_ofDim {d : SymDim} {c : SymDim} (h : d.Covers names c) :
    (ofDim d).Covers names (ofDim c) := by
  cases d with
  | unknown => exact covers_unknown _
  | size n =>
    rw [SymDim.covers_size.mp h]
    rfl
  | param p =>
    obtain ⟨n, hn, rfl⟩ := h
    exact ⟨n, hn, rfl⟩

theorem Covers.int? {e c : SymElement} (h : e.Covers names c) : Told e.int? c.int? := by
  intro n hn
  cases e with
  | int m =>
    rw [covers_int.mp h]
    exact hn
  | unknown | param _ | float _ => simp [SymElement.int?] at hn

theorem Covers.float? {e c : SymElement} (h : e.Covers names c) : Told e.float? c.float? := by
  intro x hx
  cases e with
  | float bits =>
    rw [covers_float.mp h]
    exact hx
  | unknown | param _ | int _ => simp [SymElement.float?] at hx

theorem merge_cases (e e' : SymElement) : e.merge e' = unknown ∨ e.merge e' = e ∧ e' = e := by
  cases e <;> cases e' <;> simp [merge]
  all_goals exact (Classical.em _).symm.imp id fun h => ⟨h, h.symm⟩

theorem Covers.merge_left {e c : SymElement} (h : e.Covers names c) (e' : SymElement) :
    (e.merge e').Covers names c := by
  rcases merge_cases e e' with hm | ⟨hm, -⟩
  · rw [hm]
    exact covers_unknown c
  · rw [hm]
    exact h

theorem Covers.merge_right {e' c : SymElement} (h : e'.Covers names c) (e : SymElement) :
    (e.merge e').Covers names c := by
  rcases merge_cases e e' with hm | ⟨hm, he⟩
  · rw [hm]
    exact covers_unknown c
  · rw [hm, ← he]
    exact h

theorem covers_int_cases (h : a.Covers names (.int x)) :
    a = .unknown ∨ a = .int x ∨ ∃ p, a = .param p ∧ names p = some x := by
  cases a with
  | unknown => exact .inl rfl
  | int n => exact .inr (.inl (covers_int.mp h).symm)
  | float bits => cases covers_float.mp h
  | param p =>
    obtain ⟨n, hn, hx⟩ := h
    cases hx
    exact .inr (.inr ⟨p, rfl, hn⟩)

theorem add_covers_int (ha : a.Covers names (.int x)) (hb : b.Covers names (.int y)) :
    (a + b).Covers names (.int (x + y)) := by
  change (add a b).Covers names _
  rcases covers_int_cases ha with rfl | rfl | ⟨p, rfl, hp⟩ <;>
    rcases covers_int_cases hb with rfl | rfl | ⟨q, rfl, hq⟩ <;>
    simp only [add] <;> (try split_ifs) <;> simp_all [covers_param]

theorem sub_covers_int (ha : a.Covers names (.int x)) (hb : b.Covers names (.int y)) :
    (a - b).Covers names (.int (x - y)) := by
  change (sub a b).Covers names _
  rcases covers_int_cases ha with rfl | rfl | ⟨p, rfl, hp⟩ <;>
    rcases covers_int_cases hb with rfl | rfl | ⟨q, rfl, hq⟩ <;>
    simp only [sub] <;> (try split_ifs) <;> simp_all [covers_param]

theorem mul_covers_int (ha : a.Covers names (.int x)) (hb : b.Covers names (.int y)) :
    (a * b).Covers names (.int (x * y)) := by
  change (mul a b).Covers names _
  rcases covers_int_cases ha with rfl | rfl | ⟨p, rfl, hp⟩ <;>
    rcases covers_int_cases hb with rfl | rfl | ⟨q, rfl, hq⟩ <;>
    simp only [mul] <;> (try split_ifs) <;> simp_all [covers_param]

theorem div_covers_int (hy : y ≠ 0) (ha : a.Covers names (.int x)) (hb : b.Covers names (.int y)) :
    (a / b).Covers names (.int (x / y)) := by
  change (div a b).Covers names _
  rcases covers_int_cases ha with rfl | rfl | ⟨p, rfl, hp⟩ <;>
    rcases covers_int_cases hb with rfl | rfl | ⟨q, rfl, hq⟩ <;>
    simp only [div] <;> (try split_ifs) <;> simp_all [covers_param]

theorem covers_float_cases {bits : UInt32} (h : a.Covers names (.float bits)) :
    a = .unknown ∨ a = .float bits := by
  cases a with
  | unknown => exact .inl rfl
  | int n => cases covers_int.mp h
  | float bits => exact .inr (covers_float.mp h).symm
  | param p =>
    obtain ⟨n, hn, hx⟩ := h
    cases hx

end TensorGraph.SymElement
