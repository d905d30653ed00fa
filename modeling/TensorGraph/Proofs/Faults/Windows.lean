import TensorGraph.Proofs.Faults.Rules

/-! Windows do not fault on moderate inputs if their attributes are moderate too. -/

namespace TensorGraph

open Outcome SymInputs

variable {ε : Type} {sym : SymInputs}

theorem toInt_intOfSize_of_moderate {n : Nat} (h : n ≤ moderateLimit) : (intOfSize n).toInt = n :=
  toInt_intOfSize (h.trans_lt (by decide))

def Padding.Moderate (p : Padding) : Prop :=
  ∀ pads, p = .fixed pads → ∀ n ∈ pads, n ≤ moderateLimit

def DimPadding.Moderate (p : DimPadding) : Prop :=
  ∀ start stop, p = .fixed start stop → start ≤ moderateLimit ∧ stop ≤ moderateLimit

theorem getD_le_moderateLimit {ns : List Nat} (h : ∀ n ∈ ns, n ≤ moderateLimit) (k : Nat) :
    ns.getD k 0 ≤ moderateLimit := by
  rw [List.getD_eq_getElem?_getD]
  cases hn : ns[k]? with
  | none => exact Nat.zero_le _
  | some n => exact h n (List.mem_of_getElem? hn)

namespace Padding

theorem noFault_dim (p : Padding) (k rank : Nat) : (p.dim k rank).NoFault := by
  unfold dim
  split
  · exact noFault_ok _
  · exact noFault_ok _
  · exact noFault_bind (noFault_refuseIf _ _) fun _ _ => noFault_ok _

theorem Moderate.dim {p : Padding} (h : p.Moderate) {k rank : Nat} {d : DimPadding}
    (hd : p.dim k rank = .ok d) : d.Moderate := by
  cases p with
  | same =>
    cases hd
    rintro _ _ ⟨⟩
  | fixed pads =>
    cases pads with
    | nil =>
      cases hd
      rintro _ _ ⟨⟩
      exact ⟨Nat.zero_le _, Nat.zero_le _⟩
    | cons n pads =>
      obtain ⟨_, -, hd⟩ := bind_eq_ok.mp hd
      cases hd
      rintro _ _ ⟨⟩
      exact ⟨getD_le_moderateLimit (h _ rfl) _, getD_le_moderateLimit (h _ rfl) _⟩

end Padding

namespace Window

theorem noFault_perDimension (values : List Nat) (rank : Nat) (conflict : ValueConflict) :
    (perDimension values rank conflict).NoFault := by
  unfold perDimension
  split_ifs <;> simp

/-- The entries of an attribute are positive, and moderate if the listed ones are. -/
theorem perDimension_bounds {values strides : List Nat} {rank : Nat} {conflict : ValueConflict}
    (hvalues : ∀ n ∈ values, n ≤ moderateLimit)
    (h : perDimension values rank conflict = .ok strides) (k : Nat) :
    0 < strides.getD k 1 ∧ strides.getD k 1 ≤ moderateLimit := by
  have hentries : ∀ n ∈ strides, 0 < n ∧ n ≤ moderateLimit := by
    unfold perDimension at h
    split_ifs at h with hempty hzero
    · cases h
      intro n hn
      rw [List.eq_of_mem_replicate hn]
      decide
    · cases h
      rw [not_or, List.contains_iff_mem] at hzero
      exact fun n hn => ⟨Nat.pos_of_ne_zero fun h => hzero.2 (h ▸ hn), hvalues n hn⟩
  rw [List.getD_eq_getElem?_getD]
  cases hn : strides[k]? with
  | none => decide
  | some n => exact hentries n (List.mem_of_getElem? hn)

variable {input size : SymDim} {stride dilation : Nat} {padding : DimPadding}

theorem noFault_outputSize (hinput : input.Moderate) (hstride : 0 < stride ∧ stride ≤ moderateLimit)
    {ceil : Bool} (hsteps : ∀ start stop, padding = .fixed start stop →
      (stepCount input size stride dilation start stop ceil : Outcome RuleError SymDim).NoFault) :
    (outputSize input size stride dilation padding ceil).NoFault := by
  refine noFault_bind ?_ fun _ _ => noFault_bind (noFault_refuseIf _ _) fun _ _ => noFault_ok _
  cases padding with
  | same =>
    refine SymDim.noFault_ceilDiv (fun n hn => ?_) ?_
    · have := (hinput n hn).1
      omega
    · rw [toInt_intOfSize_of_moderate hstride.2]
      omega
  | fixed start stop => exact noFault_bind (hsteps start stop rfl) fun _ _ => noFault_ok _

theorem noFault_checkPads (hpadding : padding.Moderate) {start stop : Nat}
    (h : padding = .fixed start stop) : (checkSize (start + stop) : Outcome ε Nat).NoFault := by
  have hpads := hpadding start stop h
  simp only [moderateLimit] at hpads
  exact noFault_checkSize (by simp only [sizeLimit]; omega)

/-- Where steps are rounded down they are counted for any window. -/
theorem noFault_outputSize_floor (hinput : input.Moderate)
    (hstride : 0 < stride ∧ stride ≤ moderateLimit) (hpadding : padding.Moderate) :
    (outputSize input size stride dilation padding false).NoFault := by
  refine noFault_outputSize hinput hstride fun start stop h => ?_
  refine noFault_bind (noFault_checkPads hpadding h) fun _ _ => SymDim.noFault_floorDiv _ ?_
  rw [toInt_intOfSize_of_moderate hstride.2]
  omega

theorem toInt_of_span_one {k n : Int64} (h : span (.size k) 1 = .size n) : n.toInt = k.toInt := by
  obtain ⟨a, ha, hn⟩ := eq_size_of_add h
  have hone : SymDim.size k - .size 1 = .size a := by
    rw [← ha]
    change _ = SymDim.mul _ (.size 1)
    unfold SymDim.mul
    rw [if_pos rfl]
  obtain ⟨_, _, hk, hstep, hsub⟩ := eq_size_of_sub rfl hone
  cases hk
  cases hstep
  omega

theorem room_bounds (hinput : input.Moderate) {pads k : Nat} (hpads : pads ≤ 2 * moderateLimit)
    (hk : k ≤ moderateLimit) {m : Int64}
    (hroom : input + .ofSize pads - span (.ofSize k) 1 = .size m) :
    -moderateLimit ≤ m.toInt ∧ m.toInt ≤ 3 * moderateLimit := by
  have hlimit := intLimit_eq
  obtain ⟨padded, covered, hpadded, hcovered, hm⟩ := eq_size_of_sub (isParam_span _ _) hroom
  obtain ⟨n, hn, hsum⟩ := eq_size_of_add hpadded
  have hspan := toInt_of_span_one hcovered
  have hsize := hinput n (SymDim.value?_eq_some.mpr hn)
  rw [toInt_intOfSize_of_moderate hk] at hspan
  simp only [moderateLimit] at *
  rw [toInt_intOfSize (by omega)] at hsum
  omega

/-- Where steps are rounded up they are counted for moderate windows that are not spread. -/
theorem noFault_outputSize_ceil (hinput : input.Moderate)
    (hstride : 0 < stride ∧ stride ≤ moderateLimit) (hpadding : padding.Moderate) {k : Nat}
    (hk : k ≤ moderateLimit) : (outputSize input (.ofSize k) stride 1 padding true).NoFault := by
  refine noFault_outputSize hinput hstride fun start stop h => ?_
  refine noFault_bind (noFault_checkPads hpadding h) fun pads hchecked => ?_
  obtain ⟨-, rfl⟩ := checkSize_eq_ok.mp hchecked
  have hpads := hpadding start stop h
  have hroom := fun m => @room_bounds input hinput (start + stop) k (by omega) hk m
  have hstep := toInt_intOfSize_of_moderate hstride.2
  have hpos : 0 < (intOfSize stride).toInt := by omega
  refine noFault_bind (SymDim.noFault_ceilDiv (fun m hm => ?_) hpos) fun steps hsteps => ?_
  · have := (hroom m (SymDim.value?_eq_some.mp hm)).1
    simp only [moderateLimit] at this
    omega
  unfold trimSteps
  split
  · next c size =>
    split_ifs with hcount
    · obtain ⟨m, hm⟩ := eq_size_of_ceilDiv hsteps
      have hlast := SymDim.ceilDiv_mul_lt hpos (hm ▸ hsteps)
      have hsize := hinput size rfl
      have hfar := (hroom m hm).2
      have hbegin := toInt_intOfSize_of_moderate hpads.1
      have htop := fitsInt_toInt c
      rw [gt_iff_lt, Int64.lt_iff_toInt_lt, Int64.toInt_zero] at hcount
      have hmoved := Int.mul_nonneg hcount.le hpos.le
      unfold FitsInt at htop
      simp only [moderateLimit] at *
      refine noFault_bind (noFault_checkInt (by unfold FitsInt; omega)) fun _ _ => ?_
      refine noFault_bind (noFault_checkInt (by unfold FitsInt; omega)) fun _ _ => ?_
      split_ifs
      · exact noFault_bind (noFault_checkInt (by unfold FitsInt; omega)) fun _ _ => noFault_ok _
      · exact noFault_ok _
    · exact noFault_ok _
  · exact noFault_ok _
  · exact noFault_ok _

end Window

structure Conv.Moderate (op : Conv) : Prop where
  padding : op.padding.Moderate
  strides : ∀ n ∈ op.strides, n ≤ moderateLimit
  groups : op.groups ≤ moderateLimit

structure Pool.Moderate (op : Pool) : Prop where
  kernel : ∀ n ∈ op.kernel, n ≤ moderateLimit
  padding : op.padding.Moderate
  strides : ∀ n ∈ op.strides, n ≤ moderateLimit

namespace WeightedWindow

variable {x weight : SymTensor}

theorem noFault_dims? (x weight : SymTensor) : (dims? x weight).NoFault := by
  refine noFault_bind (x.shape.noFault_demandRank 3) fun _ _ => ?_
  refine noFault_bind (weight.shape.noFault_demandRank 3) fun _ _ => ?_
  split
  · exact noFault_bind (noFault_refuseIf _ _) fun _ _ => noFault_ok _
  · exact noFault_ok _

theorem shapes_of_dims? {ds ws : List SymDim} (h : dims? x weight = .ok (some (ds, ws))) :
    x.shape = .ranked ds ∧ weight.shape = .ranked ws := by
  obtain ⟨_, -, h⟩ := bind_eq_ok.mp h
  obtain ⟨_, -, h⟩ := bind_eq_ok.mp h
  split at h
  · next hx hw =>
    obtain ⟨_, -, h⟩ := bind_eq_ok.mp h
    cases h
    exact ⟨hx, hw⟩
  · cases h

theorem noFault_demandBias (bias : Option SymTensor) (channels : SymDim) :
    (demandBias bias channels).NoFault := by
  cases bias with
  | none => exact noFault_ok _
  | some b => exact noFault_bind (b.shape.noFault_declareRank (by decide)) fun _ _ =>
      noFault_bind (SymDim.noFault_refine _ _) fun _ _ => noFault_ok _

end WeightedWindow

open WeightedWindow Window

theorem Conv.noFault_demandGroups {channels : SymDim} (hchannels : channels.Moderate) {groups : Nat}
    (hgroups : groups ≠ 0 ∧ groups ≤ moderateLimit) :
    (demandGroups channels (intOfSize groups)).NoFault := by
  unfold demandGroups
  split
  · next n hn =>
    have hnonneg := (hchannels n hn).1
    have hint := toInt_intOfSize_of_moderate hgroups.2
    have hdiv : (divInt n (intOfSize groups) : Outcome RuleError Int64).NoFault :=
      noFault_divInt_iff.mpr (by omega)
    exact noFault_bind (noFault_remInt hdiv) fun _ _ => noFault_refuseIf _ _
  · exact noFault_ok _

theorem Conv.noFault_infer {op : Conv} (hop : op.Moderate) (h : sym.Moderate) :
    (op.infer sym).NoFault := by
  rw [infer_eq]
  refine noFault_bind (sym.noFault_demand 0) fun x hx =>
      noFault_bind (sym.noFault_demand 1) fun w hw => ?_
  refine noFault_bind (noFault_refuseIf _ _) fun _ _ => ?_
  refine noFault_bind (noFault_refuseIf _ _) fun _ hgroups => ?_
  refine noFault_bind (noFault_dims? x w) fun dims hdims => ?_
  rcases dims with _ | ⟨ds, ws⟩
  · exact noFault_ok _
  obtain ⟨hs, ht⟩ := shapes_of_dims? hdims
  refine noFault_bind (noFault_perDimension _ _ _) fun strides hstrides => ?_
  refine noFault_bind (noFault_perDimension _ _ _) fun dilations _ => ?_
  refine noFault_bind (SymDim.noFault_refine _ _) fun _ _ => ?_
  refine noFault_bind (noFault_demandGroups ((h.demand hw).getD ht 0)
    ⟨refuseIf_eq_ok.mp hgroups, hop.groups⟩) fun _ _ => ?_
  refine noFault_bind (noFault_demandBias _ _) fun _ _ => noFault_bind ?_ fun _ _ => noFault_ok _
  refine noFault_mapM fun k _ => noFault_bind (op.padding.noFault_dim _ _) fun d hd => ?_
  exact noFault_outputSize_floor ((h.demand hx).getD hs _)
    (perDimension_bounds hop.strides hstrides k) (hop.padding.dim hd)

theorem ConvTranspose.noFault_infer {op : ConvTranspose} (hop : op.padding.Moderate)
    (sym : SymInputs) : (op.infer sym).NoFault := by
  rw [infer_eq]
  refine noFault_bind (sym.noFault_demand 0) fun x _ =>
      noFault_bind (sym.noFault_demand 1) fun w _ => ?_
  refine noFault_bind (noFault_refuseIf _ _) fun _ _ => ?_
  refine noFault_bind (noFault_refuseIf _ _) fun _ _ => ?_
  refine noFault_bind (noFault_dims? x w) fun dims _ => ?_
  rcases dims with _ | ⟨ds, ws⟩
  · exact noFault_ok _
  refine noFault_bind (noFault_perDimension _ _ _) fun strides _ => ?_
  refine noFault_bind (noFault_perDimension _ _ _) fun dilations _ => ?_
  refine noFault_bind ?_ fun extra _ => ?_
  · unfold extraSizes
    split_ifs <;> simp
  refine noFault_bind (SymDim.noFault_refine _ _) fun _ _ => ?_
  refine noFault_bind (noFault_demandBias _ _) fun _ _ => noFault_bind ?_ fun _ _ => noFault_ok _
  refine noFault_mapM fun k _ => noFault_bind (op.padding.noFault_dim _ _) fun d hd => ?_
  refine noFault_bind ?_ fun _ _ => noFault_bind (noFault_refuseIf _ _) fun _ _ => noFault_ok _
  cases hpadding : d with
  | same => exact noFault_ok _
  | fixed start stop =>
    exact noFault_bind (noFault_checkPads (hop.dim hd) hpadding) fun _ _ => noFault_ok _

theorem Pool.noFault_infer {op : Pool} (hop : op.Moderate) (h : sym.Moderate) :
    (op.infer sym).NoFault := by
  refine noFault_bind (sym.noFault_demand 0) fun x hx => ?_
  refine noFault_bind (noFault_bind (noFault_refuseIf _ _) fun _ _ =>
    noFault_bind (x.shape.noFault_demandRank 3) fun _ _ => noFault_ok _) fun dims hdims => ?_
  cases dims with
  | none => exact noFault_ok _
  | some ds =>
    have hs : x.shape = .ranked ds := by
      obtain ⟨_, -, hdims⟩ := bind_eq_ok.mp hdims
      obtain ⟨_, -, hdims⟩ := bind_eq_ok.mp hdims
      cases hx : x.shape with
      | unknown => simp [hx, SymShape.dims?] at hdims
      | ranked es => simpa [hx, SymShape.dims?] using hdims
    refine noFault_bind (noFault_refuseIf _ _) fun _ _ => ?_
    refine noFault_bind (noFault_perDimension _ _ _) fun strides hstrides => ?_
    refine noFault_bind ?_ fun _ _ => noFault_ok _
    refine noFault_mapM fun k _ => noFault_bind (op.padding.noFault_dim _ _) fun d hd => ?_
    have hinput := (h.demand hx).getD hs (2 + k)
    have hstride := perDimension_bounds hop.strides hstrides k
    have hpadding := hop.padding.dim hd
    cases op.ceilMode with
    | false => exact noFault_outputSize_floor hinput hstride hpadding
    | true =>
      refine noFault_outputSize_ceil hinput hstride hpadding ?_
      rw [List.getD_eq_getElem?_getD]
      cases hn : op.kernel[k]? with
      | none => decide
      | some n => exact hop.kernel n (List.mem_of_getElem? hn)

end TensorGraph
