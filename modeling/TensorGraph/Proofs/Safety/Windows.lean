import TensorGraph.Proofs.Faults.Windows
import TensorGraph.Proofs.Safety.Calls

/-! Windows that move over images. Positions in the padded image are counted where the rule has
placed the windows inside it; padding that follows the sizes of the windows has to be asked to be
small. -/

namespace TensorGraph

open Outcome Kernel

variable {inputs : ValueInputs} {outputs : List Value} {out x v : Value} {ε α β : Type}

theorem Padding.eq_same_of_dim (p : Padding) {k rank : Nat} (h : p.dim k rank = .ok .same) :
    p = .same := by
  cases p with
  | same => rfl
  | fixed pads =>
    cases pads with
    | nil => cases h
    | cons n pads =>
      obtain ⟨_, -, h⟩ := bind_eq_ok.mp h
      cases h

namespace Window

/-- Whether the positions of a window of `size` elements at `places` places can be computed. -/
structure Motion.Carries (m : Motion) (places size : Nat) : Prop where
  padStart : m.padStart < intLimit
  reach : ∀ i < places, ∀ k < size, i * m.stride + k * m.dilation < intLimit

theorem Motion.carries_of_last {m : Motion} {places size : Nat} (hpad : m.padStart < intLimit)
    (h : 0 < places → 0 < size →
      (places - 1) * m.stride + (size - 1) * m.dilation < intLimit) : m.Carries places size := by
  refine ⟨hpad, fun i hi k hk => ?_⟩
  have hlast := h (by omega) (by omega)
  have hmoved : i * m.stride ≤ (places - 1) * m.stride := Nat.mul_le_mul_right _ (by omega)
  have hspread : k * m.dilation ≤ (size - 1) * m.dilation := Nat.mul_le_mul_right _ (by omega)
  omega

theorem Motion.Carries.noFault_position {m : Motion} {places size i k : Nat}
    (h : m.Carries places size) (hi : i < places) (hk : k < size) :
    (m.position i k : Outcome ε Int64).NoFault := by
  have hpad := h.padStart
  have hreach := h.reach i hi k hk
  unfold intLimit at hpad hreach
  refine noFault_bind (noFault_checkSize (by unfold sizeLimit; omega)) fun moved hmoved => ?_
  refine noFault_bind (noFault_checkSize (by unfold sizeLimit; omega)) fun spread hspread => ?_
  obtain ⟨-, rfl⟩ := checkSize_eq_ok.mp hmoved
  obtain ⟨-, rfl⟩ := checkSize_eq_ok.mp hspread
  refine noFault_bind (noFault_checkSize (by unfold sizeLimit; omega)) fun sum hsum => ?_
  obtain ⟨-, rfl⟩ := checkSize_eq_ok.mp hsum
  refine noFault_checkInt ?_
  rw [toInt_intOfSize hreach, toInt_intOfSize hpad]
  unfold FitsInt
  omega

/-- The entries of an attribute are positive, and not larger than the listed ones. -/
theorem perDimension_eq_ok {values entries : List Nat} {rank : Nat} {conflict : ValueConflict}
    (h : perDimension values rank conflict = .ok entries) :
    entries.length = rank ∧ ∀ k, 0 < entries.getD k 1 ∧
      (entries.getD k 1 = 1 ∨ entries.getD k 1 ∈ values) := by
  have hentries : entries.length = rank ∧ ∀ n ∈ entries, 0 < n ∧ (n = 1 ∨ n ∈ values) := by
    unfold perDimension at h
    split_ifs at h with hempty hconflict
    · cases h
      refine ⟨List.length_replicate, fun n hn => ?_⟩
      obtain rfl := List.eq_of_mem_replicate hn
      exact ⟨Nat.one_pos, .inl rfl⟩
    · cases h
      rw [not_or, not_not, List.contains_iff_mem] at hconflict
      exact ⟨hconflict.1, fun n hn => ⟨Nat.pos_of_ne_zero fun h => hconflict.2 (h ▸ hn), .inr hn⟩⟩
  refine ⟨hentries.1, fun k => ?_⟩
  rw [List.getD_eq_getElem?_getD]
  cases hn : entries[k]? with
  | none => exact ⟨Nat.one_pos, .inl rfl⟩
  | some n => exact hentries.2 n (List.mem_of_getElem? hn)

theorem ofSize_sub_one {size : Nat} (hsize : 0 < size ∧ size < intLimit) :
    SymDim.ofSize size - .size 1 = .ofSize (size - 1) :=
  SymDim.ofSize_sub hsize.1 hsize.2

theorem toInt_of_span {size dilation : Nat} {c : Int64} (hsize : 0 < size ∧ size < intLimit)
    (hdilation : dilation < intLimit) (h : span (.ofSize size) dilation = .size c) :
    c.toInt = (size - 1 : Nat) * dilation + 1 := by
  have hlimit := intLimit_eq
  obtain ⟨a, ha, hsum⟩ := eq_size_of_add h
  have hone : (1 : Int64).toInt = 1 := rfl
  rw [ofSize_sub_one hsize] at ha
  have hprod := SymDim.toInt_of_mul ha
  unfold intLimit at hsize
  rw [toInt_intOfSize (by omega), toInt_intOfSize hdilation] at hprod
  omega

theorem sizes_of_add {d e : SymDim} {n : Int64} (h : d + e = .size n) :
    ∃ m k, d = .size m ∧ e = .size k ∧ n.toInt = m.toInt + k.toInt := by
  cases e with
  | size k =>
    obtain ⟨m, hm, hsum⟩ := eq_size_of_add h
    exact ⟨m, k, hm, rfl, hsum⟩
  | unknown | param _ =>
    change SymDim.add d _ = .size n at h
    cases d with
    | size m =>
      simp only [SymDim.add] at h
      split_ifs at h
    | unknown | param _ => cases h

theorem eq_size_of_floorDiv {d : SymDim} {k n : Int64}
    (h : (d.floorDiv (.size k) : Outcome ε SymDim) = .ok (.size n)) : ∃ m, d = .size m := by
  by_cases hone : k = 1
  · simp only [SymDim.floorDiv, hone, if_true, Outcome.ok.injEq] at h
    exact ⟨n, h⟩
  · cases d with
    | size m => exact ⟨m, rfl⟩
    | unknown | param _ => simp [SymDim.floorDiv, hone] at h

theorem le_of_trimSteps {s input : SymDim} {stride m : Int64} {start : Nat}
    (h : (trimSteps s input stride start : Outcome ε SymDim) = .ok (.size m)) :
    ∃ k, s = .size k ∧ m.toInt ≤ k.toInt := by
  cases s with
  | unknown | param _ => cases h
  | size k =>
    refine ⟨k, rfl, ?_⟩
    cases input with
    | unknown | param _ =>
      cases h
      exact le_rfl
    | size n =>
      unfold trimSteps at h
      dsimp only at h
      by_cases hk : k > 0
      · rw [if_pos hk] at h
        obtain ⟨last, -, h⟩ := bind_eq_ok.mp h
        obtain ⟨limit, -, h⟩ := bind_eq_ok.mp h
        split_ifs at h
        · obtain ⟨a, ha, h⟩ := bind_eq_ok.mp h
          cases h
          rw [toInt_of_checkInt ha]
          omega
        · cases h
          exact le_rfl
      · rw [if_neg hk] at h
        cases h
        exact le_rfl

theorem toInt_of_room {n pads size dilation : Nat} {r : Int64} (hn : n < countLimit)
    (hpads : pads ≤ 2 * moderateLimit) (hsize : 0 < size ∧ size < intLimit)
    (hdilation : dilation < intLimit)
    (h : SymDim.ofSize n + .ofSize pads - span (.ofSize size) dilation = .size r) :
    r.toInt = n + pads - ((size - 1 : Nat) * dilation + 1) := by
  have hlimit := intLimit_eq
  obtain ⟨padded, c, hpadded, hcovered, hr⟩ := eq_size_of_sub (isParam_span _ _) h
  obtain ⟨k, hk, hsum⟩ := eq_size_of_add hpadded
  cases hk
  unfold countLimit at hn
  unfold moderateLimit at hpads
  rw [toInt_intOfSize (by omega), toInt_intOfSize (by omega)] at hsum
  rw [hr, hsum, toInt_of_span hsize hdilation hcovered]

/-- The last place lies at most one stride behind the padded input. -/
theorem lt_of_stepCount {n size stride dilation start stop : Nat} {ceil : Bool} {m : Int64}
    (hn : n < countLimit) (hsize : 0 < size ∧ size < intLimit)
    (hstride : 0 < stride ∧ stride ≤ moderateLimit) (hdilation : dilation < intLimit)
    (hpads : start ≤ moderateLimit ∧ stop ≤ moderateLimit)
    (h : (stepCount (.ofSize n) (.ofSize size) stride dilation start stop ceil : Outcome ε SymDim) =
      .ok (.size m)) :
    m.toInt * stride + (size - 1 : Nat) * dilation < n + (start + stop : Nat) + stride := by
  obtain ⟨pads, hchecked, h⟩ := bind_eq_ok.mp h
  obtain ⟨-, rfl⟩ := checkSize_eq_ok.mp hchecked
  have hint := toInt_intOfSize_of_moderate hstride.2
  have hpos : 0 < (intOfSize stride).toInt := by omega
  have hroom :=
    fun r => @toInt_of_room n (start + stop) size dilation r hn (by omega) hsize hdilation
  cases ceil with
  | false =>
    have h : ((SymDim.ofSize n + .ofSize (start + stop) - span (.ofSize size) dilation).floorDiv
      (.ofSize stride) : Outcome ε SymDim) = .ok (.size m) := h
    obtain ⟨r, hr⟩ := eq_size_of_floorDiv h
    have hquot := SymDim.toInt_of_floorDiv hpos (hr ▸ h)
    have hle := Int.ediv_mul_le r.toInt hpos.ne'
    rw [← hquot, hint, hroom r hr] at hle
    omega
  | true =>
    obtain ⟨s, hs, h⟩ := bind_eq_ok.mp h
    obtain ⟨k, rfl, hle⟩ := le_of_trimSteps h
    obtain ⟨r, hr⟩ := eq_size_of_ceilDiv hs
    have hlast := SymDim.ceilDiv_mul_lt hpos (hr ▸ hs)
    have hmoved := Int.mul_le_mul_of_nonneg_right hle hpos.le
    rw [hint] at hlast hmoved
    rw [hroom r hr] at hlast
    omega

def dimPads (same : Outcome ε (Nat × Nat)) : DimPadding → Outcome ε (Nat × Nat)
  | .fixed start stop => .ok (start, stop)
  | .same => same

theorem samePads_eq_ok {n places size stride dilation : Nat} (hsize : 0 < size)
    (hreach : (places - 1) * stride + ((size - 1) * dilation + 1) < sizeLimit) :
    (samePads n places size stride dilation : Outcome ε (Nat × Nat)) =
      .ok (((places - 1) * stride + ((size - 1) * dilation + 1) - n) / 2,
        (places - 1) * stride + ((size - 1) * dilation + 1) - n -
          ((places - 1) * stride + ((size - 1) * dilation + 1) - n) / 2) := by
  have hchecked : ∀ m < sizeLimit, (checkSize m : Outcome ε Nat) = .ok m := fun m hm => if_pos hm
  have hless : (checkSub size 1 : Outcome ε Nat) = .ok (size - 1) := if_pos hsize
  rw [samePads, hless, ok_bind, hchecked _ (by omega), ok_bind, hchecked _ (by omega), ok_bind,
    hchecked _ (by omega), ok_bind, hchecked _ hreach]
  rfl

/-- The pads that go with the rule make a motion that carries the window. -/
theorem exists_pads {n places size stride dilation : Nat} {d : DimPadding} {ceil : Bool}
    (hn : n < countLimit) (hplaces : places < countLimit) (hsize : size < intLimit)
    (hstride : 0 < stride ∧ stride ≤ moderateLimit) (hdilation : dilation < intLimit)
    (hd : d.Moderate)
    (hsame : d = .same → 0 < size ∧ (size - 1) * dilation < 4611686018427387904)
    (h : outputSize (.ofSize n) (.ofSize size) stride dilation d ceil = .ok (.ofSize places)) :
    ∃ p : Nat × Nat, (dimPads (samePads n places size stride dilation) d : Outcome ε (Nat × Nat)) =
      .ok p ∧ Motion.Carries ⟨stride, dilation, p.1, p.2⟩ places size ∧ n + p.2 < intLimit := by
  have hlimit := intLimit_eq
  obtain ⟨count, hcount, h⟩ := bind_eq_ok.mp h
  obtain ⟨_, -, h⟩ := bind_eq_ok.mp h
  cases h
  unfold countLimit at hn hplaces
  cases d with
  | same =>
    obtain ⟨hpos, hspread⟩ := hsame rfl
    have hint := toInt_intOfSize_of_moderate hstride.2
    have hlast := SymDim.ceilDiv_mul_lt (by omega) hcount
    rw [hint, toInt_intOfSize (by omega), toInt_intOfSize (by omega)] at hlast
    have hmoved : (places - 1) * stride < countLimit := by
      have hlast : places * stride < n + stride := by exact_mod_cast hlast
      rw [Nat.sub_mul]
      unfold countLimit
      omega
    unfold countLimit at hmoved
    have hreach : (places - 1) * stride + ((size - 1) * dilation + 1) < sizeLimit := by
      unfold sizeLimit
      omega
    refine ⟨_, samePads_eq_ok hpos hreach, Motion.carries_of_last ?_ fun _ _ => ?_, ?_⟩ <;>
      unfold intLimit <;> dsimp only <;> omega
  | fixed start stop =>
    obtain ⟨steps, hsteps, hcount⟩ := bind_eq_ok.mp hcount
    have hpads := hd start stop rfl
    obtain ⟨m, rfl, hm⟩ := eq_size_of_add (Outcome.ok.inj hcount)
    have hone : (1 : Int64).toInt = 1 := rfl
    rw [toInt_intOfSize (by omega), hone] at hm
    refine ⟨(start, stop), rfl, Motion.carries_of_last ?_ fun hpos hpos' => ?_, ?_⟩
    · unfold intLimit
      unfold moderateLimit at hpads
      dsimp only
      omega
    · have hlt := lt_of_stepCount hn ⟨hpos', hsize⟩ hstride hdilation hpads hsteps
      have hlast : m.toInt = (places - 1 : Nat) := by omega
      rw [hlast] at hlt
      have hlt : (places - 1) * stride + (size - 1) * dilation < n + (start + stop) + stride := by
        exact_mod_cast hlt
      unfold moderateLimit at hpads hstride
      unfold intLimit
      dsimp only
      omega
    · unfold intLimit
      unfold moderateLimit at hpads
      dsimp only
      omega

/-- Whether motions carry windows along all dimensions. -/
def Carry (ms : List Motion) (places window : List Nat) : Prop :=
  List.Forall₂ (fun (m : Motion) (p : Nat × Nat) => m.Carries p.1 p.2) ms (places.zip window)

/-- Attributes of moving windows for which positions can be computed: they are moderate, and
padding that follows the windows follows no empty ones and none that are spread too far. -/
structure Tame (padding : Padding) (steps spreads window : List Nat) : Prop where
  moderate : padding.Moderate
  step_le : ∀ n ∈ steps, n ≤ moderateLimit
  spread_le : ∀ n ∈ spreads, n ≤ moderateLimit
  same : padding = .same → ∀ n ∈ window, 0 < n ∧ ∀ d ∈ spreads, (n - 1) * d < 4611686018427387904

theorem getD_replicate_one (rank k : Nat) : (List.replicate rank 1).getD k 1 = 1 := by
  rw [List.getD_eq_getElem?_getD, List.getElem?_replicate]
  split_ifs <;> rfl

section Attributes

variable {padding : Padding} {conflict conflict' : ValueConflict} {input output window : List Nat}
  {steps spreads strides dilations : List Nat} {pads : List (Nat × Nat)} {rank : Nat}

theorem length_motions (hstrides : strides.length = rank) (hdilations : dilations.length = rank)
    (hpads : pads.length = rank) : (motions strides dilations pads).length = rank := by
  simp [motions, hstrides, hdilations, hpads]

theorem getD_motions (hstrides : strides.length = rank) (hdilations : dilations.length = rank)
    (hpads : pads.length = rank) {k : Nat} (hk : k < (motions strides dilations pads).length)
    (hk' : k < pads.length) : (motions strides dilations pads)[k] =
      ⟨strides.getD k 1, dilations.getD k 1, pads[k].1, pads[k].2⟩ := by
  have hlast := length_motions hstrides hdilations hpads ▸ hk
  simp [motions, List.getD_eq_getElem?_getD, hstrides, hdilations, hlast]

theorem carry_motions {places : List Nat} (hstrides : strides.length = rank)
    (hdilations : dilations.length = rank) (hplaces : places.length = rank)
    (hwindow : window.length = rank)
    (h : List.Forall₂ (fun k (p : Nat × Nat) => Motion.Carries
      ⟨strides.getD k 1, dilations.getD k 1, p.1, p.2⟩ (places.getD k 0) (window.getD k 0))
        (List.range rank) pads) : Carry (motions strides dilations pads) places window := by
  have hpads : pads.length = rank := by rw [← h.length_eq, List.length_range]
  have hlen := length_motions hstrides hdilations hpads
  refine List.forall₂_iff_get.mpr ⟨by simp [hlen, hplaces, hwindow], fun k hk hk' => ?_⟩
  have hlast : k < rank := hlen ▸ hk
  have hcarries := (List.forall₂_iff_get.mp h).2 k (by simpa using hlast) (hpads ▸ hlast)
  rw [List.get_eq_getElem, getD_motions hstrides hdilations hpads hk (hpads ▸ hlast)]
  simpa [List.getD_eq_getElem?_getD, hplaces, hwindow, hlast] using hcarries

theorem getD_mem {l : List Nat} {k : Nat} (hk : k < l.length) :
    l.getD k 0 ∈ l ∧ l[k]? = some (l.getD k 0) := by
  rw [List.getD_eq_getElem?_getD, List.getElem?_eq_getElem hk, Option.getD_some]
  exact ⟨List.getElem_mem hk, rfl⟩

theorem Tame.bounds (htame : Tame padding steps spreads window)
    (hstrides : perDimension steps rank conflict = .ok strides)
    (hdilations : perDimension spreads rank conflict' = .ok dilations) {k : Nat} {d : DimPadding}
    (hd : padding.dim k rank = .ok d) {size : Nat} (hsize : size ∈ window)
    (hlimit : size < countLimit) : (0 < strides.getD k 1 ∧ strides.getD k 1 ≤ moderateLimit) ∧
      dilations.getD k 1 < intLimit ∧ (d = .same →
        0 < size ∧ (size - 1) * dilations.getD k 1 < 4611686018427387904) := by
  obtain ⟨-, hsteps⟩ := perDimension_eq_ok hstrides
  obtain ⟨-, hspreads⟩ := perDimension_eq_ok hdilations
  refine ⟨⟨(hsteps k).1, ?_⟩, ?_, ?_⟩
  · rcases (hsteps k).2 with hone | hlisted
    · rw [hone]
      decide
    · exact htame.step_le _ hlisted
  · rcases (hspreads k).2 with hone | hlisted
    · rw [hone]
      decide
    · exact (htame.spread_le _ hlisted).trans_lt (by decide)
  · rintro rfl
    obtain ⟨hpos, hspread⟩ := htame.same (padding.eq_same_of_dim hd) size hsize
    refine ⟨hpos, ?_⟩
    rcases (hspreads k).2 with hone | hlisted
    · unfold countLimit at hlimit
      rw [hone]
      omega
    · exact hspread _ hlisted

theorem Tame.exists_resolvePads (htame : Tame padding steps spreads window)
    (hstrides : perDimension steps input.length conflict = .ok strides)
    (hdilations : perDimension spreads input.length conflict' = .ok dilations)
    (hinput : ∀ n ∈ input, n < countLimit) (houtput : ∀ n ∈ output, n < countLimit)
    (hwindow : ∀ n ∈ window, n < countLimit) (hout : output.length = input.length)
    (hwin : window.length = input.length) {ceil : Bool}
    (hrule : ∀ k < input.length, (padding.dim k input.length >>= fun d =>
      outputSize (.ofSize (input.getD k 0)) (.ofSize (window.getD k 0)) (strides.getD k 1)
        (dilations.getD k 1) d ceil) = .ok (.ofSize (output.getD k 0))) :
    ∃ pads, resolvePads padding input output window strides dilations = .ok pads ∧
      Carry (motions strides dilations pads) output window ∧
        List.Forall₂ (fun n (m : Motion) => n + m.padStop < intLimit) input
          (motions strides dilations pads) := by
  obtain ⟨hlenStrides, -⟩ := perDimension_eq_ok hstrides
  obtain ⟨hlenDilations, -⟩ := perDimension_eq_ok hdilations
  have hpads : ∃ pads, resolvePads padding input output window strides dilations = .ok pads ∧
      List.Forall₂ (fun k (p : Nat × Nat) => Motion.Carries
        ⟨strides.getD k 1, dilations.getD k 1, p.1, p.2⟩ (output.getD k 0) (window.getD k 0) ∧
          input.getD k 0 + p.2 < intLimit) (List.range input.length) pads := by
    refine exists_mapM fun k hk => ?_
    rw [List.mem_range] at hk
    obtain ⟨hinside, -⟩ := getD_mem hk
    obtain ⟨houtside, hplaces⟩ := getD_mem (hout ▸ hk)
    obtain ⟨hcovered, hsize⟩ := getD_mem (hwin ▸ hk)
    obtain ⟨d, hd, hcount⟩ := bind_eq_ok.mp (hrule k hk)
    obtain ⟨hstride, hdilation, hsame⟩ :=
      htame.bounds hstrides hdilations hd hcovered (hwindow _ hcovered)
    obtain ⟨p, hp, hcarries, hlast⟩ :=
      exists_pads (ε := OpError) (hinput _ hinside) (houtput _ houtside)
      ((hwindow _ hcovered).trans (by decide)) hstride hdilation (htame.moderate.dim hd) hsame
        hcount
    refine ⟨p, ?_, hcarries, hlast⟩
    rw [hd]
    cases d with
    | fixed start stop => exact hp
    | same =>
      rw [hsize, hplaces]
      exact hp
  obtain ⟨pads, hok, hall⟩ := hpads
  refine ⟨pads, hok, ?_, ?_⟩
  · exact carry_motions hlenStrides hlenDilations hout hwin (hall.imp fun _ _ => And.left)
  · have hlenPads : pads.length = input.length := by rw [← hall.length_eq, List.length_range]
    have hlen := length_motions hlenStrides hlenDilations hlenPads
    refine List.forall₂_iff_get.mpr ⟨hlen.symm, fun k hk hk' => ?_⟩
    have hlast := ((List.forall₂_iff_get.mp hall).2 k (by simpa using hk) (hlenPads ▸ hk)).2
    rw [List.get_eq_getElem, List.get_eq_getElem,
      getD_motions hlenStrides hlenDilations hlenPads hk' (hlenPads ▸ hk)]
    simpa [List.getD_eq_getElem?_getD, hk] using hlast

end Attributes

theorem noFault_inside {ms : List Motion} {places window sizes : List Nat} {is ks : Index}
    (h : Carry ms places window) (hsizes : sizes.length = ms.length)
    (his : List.Forall₂ (· < ·) is places) (hks : List.Forall₂ (· < ·) ks window) :
    (inside ms sizes is ks : Outcome ε (Option Index)).NoFault := by
  induction ms generalizing places window sizes is ks with
  | nil => exact noFault_ok _
  | cons m ms ih =>
    obtain _ | ⟨size, sizes⟩ := sizes
    · cases hsizes
    cases his with
    | nil => cases h
    | @cons i _ is places hi his =>
      cases hks with
      | nil => cases h
      | @cons k _ ks window hk hks =>
        obtain _ | ⟨hcarries, h⟩ := h
        refine noFault_bind (hcarries.noFault_position hi hk) fun p _ => ?_
        dsimp only
        split_ifs
        · exact noFault_ok _
        · exact noFault_ok _
        · exact noFault_bind (ih h (Nat.succ.inj hsizes) his hks) fun _ _ => noFault_ok _

end Window

namespace Pool

open Window

theorem noFault_placeAlong {m : Motion} {size : Nat} {p : Int64} (hstart : m.padStart < intLimit)
    (hstop : size + m.padStop < intLimit) : (placeAlong m size p : Outcome ε Place).NoFault := by
  have hlimit := intLimit_eq
  unfold intLimit at hstart hstop
  unfold placeAlong
  rw [toInt_intOfSize hstart]
  refine noFault_bind (noFault_checkInt (by unfold FitsInt; omega)) fun first _ => ?_
  by_cases hbefore : p < first
  · rw [if_pos hbefore]
    exact noFault_ok _
  · rw [if_neg hbefore]
    dsimp only
    rw [toInt_intOfSize (by omega), toInt_intOfSize (by omega)]
    exact noFault_bind (noFault_checkInt (by unfold FitsInt; omega)) fun _ _ => noFault_ok _

theorem noFault_place {ms : List Motion} {places window sizes : List Nat} {is ks : Index}
    (h : Carry ms places window)
    (hsizes : List.Forall₂ (fun size (m : Motion) => size + m.padStop < intLimit) sizes ms)
    (his : List.Forall₂ (· < ·) is places) (hks : List.Forall₂ (· < ·) ks window) :
    (place ms sizes is ks : Outcome ε Place).NoFault := by
  induction hsizes generalizing places window is ks with
  | nil => exact noFault_ok _
  | @cons size m sizes ms hsize _ ih =>
    cases his with
    | nil => cases h
    | @cons i _ is places hi his =>
      cases hks with
      | nil => cases h
      | @cons k _ ks window hk hks =>
        obtain _ | ⟨hcarries, h⟩ := h
        refine noFault_bind (hcarries.noFault_position hi hk) fun p _ => ?_
        refine noFault_bind (noFault_placeAlong hcarries.padStart hsize) fun q _ => ?_
        cases q with
        | outside => exact noFault_ok _
        | padding | inside _ => exact noFault_bind (ih h his hks) fun _ _ => noFault_ok _

end Pool

end TensorGraph
