import TensorGraph.Proofs.Safety.Calls

/-! Functions of elements read together by broadcasting, which are safe since the rule lets only
shapes through that broadcast to the output. -/

namespace TensorGraph

open Outcome Kernel

namespace Layout

variable {a b c : Shape}

theorem length_padTo {rank : Nat} (h : a.length ≤ rank) : (padTo rank a).length = rank := by
  simp only [padTo, List.length_append, List.length_replicate]
  omega

theorem sizes_of_broadcastSizes {as bs cs : List Nat} (hlen : as.length = bs.length)
    (h : (as.zip bs).mapM (fun (a, b) => broadcastSize a b) = some cs) :
    List.Forall₂ (fun s t => s = t ∨ s = 1) as cs ∧
      List.Forall₂ (fun s t => s = t ∨ s = 1) bs cs := by
  have hsizes := Option.mapM_eq_some.mp h
  have hstep : ∀ m n k, broadcastSize m n = some k → (m = k ∨ m = 1) ∧ (n = k ∨ n = 1) := by
    intro m n k hk
    unfold broadcastSize at hk
    split_ifs at hk <;> cases hk <;> omega
  constructor
  · refine (Related.of_zip_left hlen hsizes).imp fun m k hm => ?_
    obtain ⟨n, hn⟩ := hm
    exact (hstep m n k hn).1
  · refine (Related.of_zip_right hlen hsizes).imp fun n k hn => ?_
    obtain ⟨m, hm⟩ := hn
    exact (hstep m n k hm).2

theorem canBroadcast_of_padTo (hle : a.length ≤ c.length)
    (h : List.Forall₂ (fun s t => s = t ∨ s = 1) (padTo c.length a) c) :
    canBroadcast a c = true := by
  refine canBroadcast_iff.mpr ⟨hle, ?_⟩
  have hdrop := List.forall₂_drop (c.length - a.length) h
  rwa [padTo, List.drop_left' (by simp)] at hdrop

theorem canBroadcast_of_broadcast (h : broadcast a b = some c) :
    canBroadcast a c = true ∧ canBroadcast b c = true := by
  have hla := length_padTo (le_max_left a.length b.length)
  have hlb := length_padTo (le_max_right a.length b.length)
  obtain ⟨hac, hbc⟩ := sizes_of_broadcastSizes (hla.trans hlb.symm) h
  have hlen : c.length = max a.length b.length := hac.length_eq.symm.trans hla
  rw [← hlen] at hac hbc
  exact ⟨canBroadcast_of_padTo (by omega) hac, canBroadcast_of_padTo (by omega) hbc⟩

theorem lt_of_mem_padTo {rank : Nat} (h : ∀ n ∈ a, n < sizeLimit) :
    ∀ n ∈ padTo rank a, n < sizeLimit := by
  intro n hn
  rcases List.mem_append.mp hn with hn | hn
  · rw [List.eq_of_mem_replicate hn]
    decide
  · exact h n hn

theorem lt_of_broadcast (ha : ∀ n ∈ a, n < sizeLimit) (hb : ∀ n ∈ b, n < sizeLimit)
    (h : broadcast a b = some c) : ∀ n ∈ c, n < sizeLimit := by
  intro k hk
  obtain ⟨i, hi⟩ := List.getElem?_of_mem hk
  obtain ⟨⟨m, n⟩, hmem, hsize⟩ := Related.get_right (Option.mapM_eq_some.mp h) hi
  replace hsize : broadcastSize m n = some k := hsize
  obtain ⟨hm, hn⟩ := List.of_mem_zip (List.mem_of_getElem? hmem)
  have hm' := lt_of_mem_padTo ha m hm
  have hn' := lt_of_mem_padTo hb n hn
  unfold broadcastSize at hsize
  split_ifs at hsize <;> cases hsize <;> assumption

/-- A scalar takes any shape that it is read together with. -/
theorem broadcast_nil (a : Shape) : broadcast [] a = some a := by
  simp only [broadcast, padTo, List.length_nil, Nat.zero_max, Nat.sub_zero, List.append_nil,
    Nat.sub_self, List.replicate_zero, List.nil_append]
  induction a with
  | nil => rfl
  | cons n a ih =>
    have hone : broadcastSize 1 n = some n := by
      by_cases h : 1 = n ∨ n = 1
      · rw [broadcastSize, if_pos h]
        exact congrArg some (by omega)
      · rw [broadcastSize, if_neg h, if_pos rfl]
    rw [List.length_cons, List.replicate_succ, List.zip_cons_cons, List.mapM_cons]
    simp [hone, ih]

theorem canBroadcast_refl (a : Shape) : canBroadcast a a = true := by
  refine canBroadcast_iff.mpr ⟨le_rfl, ?_⟩
  rw [Nat.sub_self, List.drop_zero]
  exact List.forall₂_same.mpr fun _ _ => .inl rfl

theorem canBroadcast_trans (h : canBroadcast a b = true) (h' : canBroadcast b c = true) :
    canBroadcast a c = true := by
  obtain ⟨hab, hsizes⟩ := canBroadcast_iff.mp h
  obtain ⟨hbc, hsizes'⟩ := canBroadcast_iff.mp h'
  refine canBroadcast_iff.mpr ⟨hab.trans hbc, ?_⟩
  have htail := List.forall₂_drop (b.length - a.length) hsizes'
  rw [List.drop_drop, show c.length - b.length + (b.length - a.length) = c.length - a.length by
    omega] at htail
  exact Related.trans hsizes htail fun s t u hst htu => by omega

end Layout

namespace SymShape

variable {a b : Shape} {s : SymShape}

theorem broadcast_ofSize {m n : Nat} (hm : m < sizeLimit) (hn : n < sizeLimit) :
    (SymDim.ofSize m).broadcast (.ofSize n) =
      (orRefuse (.shape .notBroadcastable) (Layout.broadcastSize m n) >>= fun k =>
        .ok (.ofSize k)) := by
  have hsame : ∀ {k l : Nat}, k < sizeLimit → l < sizeLimit →
      (SymDim.ofSize k = .ofSize l ↔ k = l) := fun hk hl =>
    ⟨fun h => intOfSize_inj hk hl (SymDim.size.inj h), congrArg _⟩
  have hone : SymDim.size 1 = .ofSize 1 := rfl
  have hlt : 1 < sizeLimit := by decide
  unfold SymDim.broadcast Layout.broadcastSize
  rw [hone]
  simp only [hsame hm hlt, hsame hn hlt]
  by_cases hm1 : m = 1
  · subst hm1
    by_cases hn1 : n = 1
    · simp [hn1]
    · simp [hn1, Ne.symm hn1]
  by_cases hn1 : n = 1
  · simp [hm1, hn1]
  by_cases hmn : m = n
  · simp [hmn, SymDim.ofSize]
  · have hint : intOfSize m ≠ intOfSize n := fun h => hmn (intOfSize_inj hm hn h)
    simp [hm1, hn1, hmn, hint, SymDim.ofSize]

theorem mapM_broadcast_ofSize {as bs : List Nat} (ha : ∀ n ∈ as, n < sizeLimit)
    (hb : ∀ n ∈ bs, n < sizeLimit) :
    ((as.map SymDim.ofSize).zip (bs.map SymDim.ofSize)).mapM (fun (x, y) => x.broadcast y) =
      (orRefuse (.shape .notBroadcastable)
        ((as.zip bs).mapM fun (a, b) => Layout.broadcastSize a b) >>= fun cs =>
          .ok (cs.map .ofSize)) := by
  induction as generalizing bs with
  | nil => rfl
  | cons m as ih =>
    cases bs with
    | nil => rfl
    | cons n bs =>
      rw [List.forall_mem_cons] at ha hb
      simp only [List.map_cons, List.zip_cons_cons, List.mapM_cons, broadcast_ofSize ha.1 hb.1,
        ih ha.2 hb.2]
      cases Layout.broadcastSize m n with
      | none => rfl
      | some k => cases (as.zip bs).mapM fun (a, b) => Layout.broadcastSize a b <;> rfl

theorem broadcastPair_ofShape (ha : ∀ n ∈ a, n < sizeLimit) (hb : ∀ n ∈ b, n < sizeLimit) :
    (ofShape a).broadcastPair (ofShape b) =
      (orRefuse (.shape .notBroadcastable) (Layout.broadcast a b) >>= fun c =>
        .ok (ofShape c)) := by
  have hpad : ∀ n (xs : Shape), List.replicate (n - xs.length) (SymDim.size 1) ++ xs.map .ofSize =
      (Layout.padTo n xs).map .ofSize := by
    intro n xs
    rw [Layout.padTo, List.map_append, List.map_replicate]
    rfl
  simp only [broadcastPair, ofShape, List.length_map, hpad]
  rw [mapM_broadcast_ofSize (Layout.lt_of_mem_padTo ha) (Layout.lt_of_mem_padTo hb), bind_assoc]
  rfl

theorem layout_of_broadcastPair (ha : ∀ n ∈ a, n < sizeLimit) (hb : ∀ n ∈ b, n < sizeLimit)
    (h : (ofShape a).broadcastPair (ofShape b) = .ok s) :
    ∃ c, Layout.broadcast a b = some c ∧ s = ofShape c := by
  rw [broadcastPair_ofShape ha hb] at h
  obtain ⟨c, hc, h⟩ := bind_eq_ok.mp h
  exact ⟨c, orRefuse_eq_ok.mp hc, (ok.inj h).symm⟩

/-- Two known shapes are read together as arrays of these shapes are. -/
theorem broadcast_ofShape (ha : ∀ n ∈ a, n < sizeLimit) (hb : ∀ n ∈ b, n < sizeLimit)
    (h : broadcast [ofShape a, ofShape b] = .ok s) :
    ∃ c, Layout.broadcast a b = some c ∧ s = ofShape c := by
  rw [broadcast, List.foldlM_cons] at h
  obtain ⟨t, ht, h⟩ := bind_eq_ok.mp h
  obtain ⟨a', ha', rfl⟩ := layout_of_broadcastPair (a := []) (by simp) ha ht
  cases (Layout.broadcast_nil a).symm.trans ha'
  rw [List.foldlM_cons] at h
  obtain ⟨t, ht, h⟩ := bind_eq_ok.mp h
  cases h
  exact layout_of_broadcastPair ha hb ht

theorem canBroadcast_of_broadcast {shapes : List Shape} (hlt : ∀ s ∈ shapes, ∀ n ∈ s, n < sizeLimit)
    (h : broadcast (shapes.map ofShape) = .ok s) :
    ∃ c, s = ofShape c ∧ (∀ n ∈ c, n < sizeLimit) ∧ ∀ a ∈ shapes, Layout.canBroadcast a c =
      true := by
  suffices hfold : ∀ b : Shape, (∀ n ∈ b, n < sizeLimit) →
      (shapes.map ofShape).foldlM broadcastPair (ofShape b) = .ok s →
        ∃ c, s = ofShape c ∧ (∀ n ∈ c, n < sizeLimit) ∧ Layout.canBroadcast b c = true ∧
          ∀ a ∈ shapes, Layout.canBroadcast a c = true by
    obtain ⟨c, hs, hc, -, hall⟩ := hfold [] (by simp) h
    exact ⟨c, hs, hc, hall⟩
  clear h
  induction shapes with
  | nil =>
    intro b hb h
    cases h
    exact ⟨b, rfl, hb, Layout.canBroadcast_refl b, by simp⟩
  | cons a shapes ih =>
    intro b hb h
    rw [List.forall_mem_cons] at hlt
    rw [List.map_cons, List.foldlM_cons] at h
    obtain ⟨t, ht, h⟩ := bind_eq_ok.mp h
    obtain ⟨d, hd, rfl⟩ := layout_of_broadcastPair hb hlt.1 ht
    obtain ⟨hbd, had⟩ := Layout.canBroadcast_of_broadcast hd
    obtain ⟨c, hs, hc, hdc, hall⟩ := ih hlt.2 d (Layout.lt_of_broadcast hb hlt.1 hd) h
    refine ⟨c, hs, hc, Layout.canBroadcast_trans hbd hdc, ?_⟩
    exact List.forall_mem_cons.mpr ⟨Layout.canBroadcast_trans had hdc, hall⟩

end SymShape

variable {op : Operator} {draws : Draws} {inputs : ValueInputs} {outputs : List Value} {out : Value}
  {ε α : Type}

theorem ValueInputs.given_of_mapM {e : OpError} {vs : List Value}
    (h : inputs.mapM (Outcome.orRefuse e) = .ok vs) : Inputs.given inputs = vs := by
  have hgiven := mapM_eq_ok.mp h
  clear h
  induction hgiven with
  | nil => rfl
  | cons ha _ ih =>
    rw [orRefuse_eq_ok.mp ha]
    exact congrArg _ ih

/-- Inputs broadcast to the output if the rule joins their shapes. -/
theorem Operator.Accepts.canBroadcast (h : op.Accepts inputs [out]) {vs : List Value}
    (hfits : ∀ v ∈ vs, v.shape.Fits) {s : SymShape}
    (hs : SymShape.broadcast (vs.map (SymShape.ofShape ∘ Value.shape)) = .ok s)
    (hout : s = .ofShape out.shape) :
    ∀ v ∈ vs, Layout.canBroadcast v.shape out.shape = true := by
  have hvs : ∀ s ∈ vs.map Value.shape, ∀ n ∈ s, n < sizeLimit := by
    intro s hs n hn
    obtain ⟨v, hv, rfl⟩ := List.mem_map.mp hs
    exact (hfits v hv).lt_sizeLimit hn
  rw [← List.map_map (g := SymShape.ofShape) (f := Value.shape)] at hs
  obtain ⟨c, rfl, hc, hall⟩ := SymShape.canBroadcast_of_broadcast hvs hs
  obtain rfl := h.shape_of_sizes hc rfl hout
  exact fun v hv => hall v.shape (List.mem_map_of_mem hv)

theorem Tensor.noFault_broadcast {x : Tensor α} {v : Value} {shape : Shape} (hx : x.shape = v.shape)
    (hfits : v.shape.Fits) (hout : out.shape.Fits) (hshape : shape = out.shape)
    (hcan : Layout.canBroadcast v.shape out.shape = true) :
    (x.broadcastElements shape : Outcome ε (List α)).NoFault := by
  subst hshape
  rw [← hx] at hcan hfits
  exact x.noFault_broadcastElements hcan hfits.extent_lt_sizeLimit hout.extent_lt_sizeLimit

theorem UnaryFn.safe (f : UnaryFn) : Safe ((Operator.unary f).prepare draws inputs outputs) := by
  refine safe_demand fun x _ => safe_single fun out _ => safe_ok ?_
  unfold UnaryFn.kernel
  by_cases hf : (!f.supports x.dtype) = true
  · rw [if_pos hf]
    exact noFault_ok _
  rw [if_neg hf]
  cases x <;> cases out
  case float.int x out =>
    dsimp only
    split_ifs <;> exact noFault_ok _
  all_goals exact noFault_ok _

theorem Cast.safe : Safe (Cast.prepare inputs outputs) := by
  refine safe_demand fun x _ => safe_single fun out _ => safe_ok ?_
  cases x <;> cases out <;> exact noFault_ok _

theorem Clip.safe : Safe (Clip.prepare inputs outputs) := by
  refine safe_demand fun x _ => safe_single fun out _ => safe_ok (noFault_sameType ?_)
  intro α _ _ x' out' _ _ _
  refine noFault_bind (noFault_element? _) fun _ _ => ?_
  exact noFault_bind (noFault_element? _) fun _ _ => noFault_ok _

namespace BinaryFn

theorem canBroadcast {f : BinaryFn} (h : (Operator.binary f).Accepts inputs [out]) {a b : Value}
    (ha : Inputs.find? inputs 0 = some a) (hb : Inputs.find? inputs 1 = some b) :
    Layout.canBroadcast a.shape out.shape = true ∧ Layout.canBroadcast b.shape out.shape =
      true := by
  obtain ⟨w, hw, -, hshape⟩ := h.infer_single rfl
  simp only [Operator.infer, infer, Operator.demand_told _ ha, Operator.demand_told _ hb,
    ok_bind] at hw
  obtain ⟨_, -, hw⟩ := bind_eq_ok.mp hw
  obtain ⟨t, ht, hw⟩ := bind_eq_ok.mp hw
  obtain ⟨s, hs, ht⟩ := bind_eq_ok.mp ht
  cases ht
  cases hw
  have hout : s = .ofShape out.shape := by
    rw [← hshape]
    split_ifs <;> simp
  have hfits : ∀ v ∈ [a, b], v.shape.Fits := by simp [h.fits_input ha, h.fits_input hb]
  have hall := h.canBroadcast hfits (by simpa using hs) hout
  simpa using hall

theorem safe (f : BinaryFn) (h : (Operator.binary f).Accepts inputs outputs) :
    Safe ((Operator.binary f).prepare draws inputs outputs) := by
  refine safe_demand fun a ha => safe_demand fun b hb => safe_single fun out hout => safe_ok ?_
  subst hout
  obtain ⟨hca, hcb⟩ := canBroadcast h ha hb
  have hfits := h.fits_single
  have hread : ∀ {α : Type} {x : Tensor α} {shape : Shape}, x.shape = a.shape ∨ x.shape = b.shape →
      shape = out.shape → (x.broadcastElements shape : Outcome OpError (List α)).NoFault := by
    rintro α x shape (hx | hx) hshape
    · exact Tensor.noFault_broadcast hx (h.fits_input ha) hfits hshape hca
    · exact Tensor.noFault_broadcast hx (h.fits_input hb) hfits hshape hcb
  unfold kernel
  by_cases hf : (!f.supports a.dtype) = true
  · rw [if_pos hf]
    exact noFault_ok _
  rw [if_neg hf]
  split
  · by_cases hcompares : f.isComparison = true
    · rw [if_pos hcompares]
      refine noFault_bind ?_ fun t _ => noFault_filled t
      refine noFault_bind (hread (.inl rfl) rfl) fun _ _ => ?_
      exact noFault_bind (hread (.inr rfl) rfl) fun _ _ => noFault_ok _
    · rw [if_neg hcompares]
      exact noFault_ok _
  · refine noFault_bind ?_ fun t _ => noFault_filled t
    refine noFault_bind (hread (.inl rfl) rfl) fun _ _ => ?_
    exact noFault_bind (hread (.inr rfl) rfl) fun _ _ => noFault_ok _
  · refine noFault_bind ?_ fun t _ => noFault_filled t
    refine noFault_bind (hread (.inl rfl) rfl) fun _ _ => ?_
    refine noFault_bind (hread (.inr rfl) rfl) fun _ _ => ?_
    exact noFault_bind (noFault_orRefuse _ _) fun _ _ => noFault_ok _
  · exact noFault_ok _

end BinaryFn

namespace VariadicFn

theorem noFault_fold {f : α → α → α} {xs : List (Tensor α)} {out : Tensor α}
    (h : ∀ x ∈ xs, (x.broadcastElements out.shape : Outcome ε (List α)).NoFault) :
    (fold f xs out : Outcome ε (Tensor α)).NoFault := by
  cases xs with
  | nil => exact noFault_ok _
  | cons first rest =>
    rw [List.forall_mem_cons] at h
    obtain ⟨hfirst, hrest⟩ := h
    suffices hfold : ∀ acc : Tensor α, acc.shape = out.shape → (rest.foldlM (fun acc t => do
        return acc.overwrite (List.zipWith f acc.data (← t.broadcastElements acc.shape))) acc :
          Outcome ε (Tensor α)).NoFault by
      exact noFault_bind hfirst fun start _ => hfold _ rfl
    induction rest with
    | nil => exact fun _ _ => noFault_ok _
    | cons x rest ih =>
      intro acc hacc
      rw [List.forall_mem_cons] at hrest
      rw [List.foldlM_cons]
      refine noFault_bind (noFault_bind (hacc ▸ hrest.1) fun _ _ => noFault_ok _) fun next hnext =>
        ?_
      obtain ⟨ys, -, hnext⟩ := bind_eq_ok.mp hnext
      cases hnext
      exact ih hrest.2 _ hacc

theorem canBroadcast {f : VariadicFn} (h : (Operator.variadic f).Accepts inputs [out])
    {vs : List Value} (hvs : inputs.mapM (Outcome.orRefuse OpError.missingInputs) = .ok vs) :
    ∀ v ∈ vs, v.shape.Fits ∧ Layout.canBroadcast v.shape out.shape = true := by
  obtain ⟨w, hw, -, hshape⟩ := h.infer_single rfl
  have hgiven : Inputs.given inputs = vs := ValueInputs.given_of_mapM hvs
  have hfits : ∀ v ∈ vs, v.shape.Fits := fun v hv =>
    h.room.fits (List.mem_append_left _ (hgiven ▸ hv))
  have htold : Inputs.given (inputs.zipIdx.map (Operator.variadic f).describeInput) =
      vs.map Value.toShapeOnly := by
    rw [Operator.describeInputs_shapeOnly rfl, ← ValueInputs.described_nil,
      ValueInputs.given_described_nil, hgiven]
  obtain ⟨first, -, hw⟩ := bind_eq_ok.mp hw
  obtain ⟨_, -, hw⟩ := bind_eq_ok.mp hw
  obtain ⟨t, ht, hw⟩ := bind_eq_ok.mp hw
  obtain ⟨s, hs, ht⟩ := bind_eq_ok.mp ht
  cases ht
  cases hw
  rw [htold, List.map_map] at hs
  have hout : s = .ofShape out.shape := by
    rw [← hshape]
    split_ifs <;> simp
  exact fun v hv => ⟨hfits v hv, h.canBroadcast hfits hs hout v hv⟩

theorem safe (f : VariadicFn) (h : (Operator.variadic f).Accepts inputs outputs) :
    Safe (f.prepare inputs outputs) := by
  refine safe_bind (noFault_mapM fun _ _ => noFault_orRefuse _ _) fun vs hvs => ?_
  refine safe_single fun out hout => safe_ok ?_
  subst hout
  have hall := canBroadcast h hvs
  have hfits := h.fits_single
  have hread : ∀ {α : Type} [Value.Stored α] [Value.Stored.Lawful α] {xs : List (Tensor α)}
      {shape : Shape}, vs.mapM (typed α) = .ok xs → shape = out.shape →
        ∀ x ∈ xs, (x.broadcastElements shape : Outcome OpError (List α)).NoFault := by
    intro α _ _ xs shape hxs hshape x hx
    obtain ⟨i, hi⟩ := List.getElem?_of_mem hx
    obtain ⟨v, hv, hvx⟩ := Related.get_right (mapM_eq_ok.mp hxs) hi
    obtain ⟨hvfits, hcan⟩ := hall v (List.mem_of_getElem? hv)
    exact Tensor.noFault_broadcast (shape_of_typed hvx) hvfits hfits hshape hcan
  unfold kernel
  by_cases hf : (!f.supports out.dtype) = true
  · rw [if_pos hf]
    exact noFault_ok _
  rw [if_neg hf]
  cases out with
  | float out =>
    refine noFault_bind (noFault_mapM fun _ _ => noFault_typed _) fun xs hxs => ?_
    exact noFault_bind (noFault_fold (hread hxs rfl)) fun _ _ => noFault_filled _
  | int out =>
    refine noFault_bind (noFault_mapM fun _ _ => noFault_typed _) fun xs hxs => ?_
    exact noFault_bind (noFault_fold (hread hxs rfl)) fun _ _ => noFault_filled _

end VariadicFn

namespace Where

theorem canBroadcast (h : Operator.select.Accepts inputs [out]) {c x y : Value}
    (hc : Inputs.find? inputs 0 = some c) (hx : Inputs.find? inputs 1 = some x)
    (hy : Inputs.find? inputs 2 = some y) :
    ∀ v ∈ [c, x, y], Layout.canBroadcast v.shape out.shape = true := by
  obtain ⟨w, hw, -, hshape⟩ := h.infer_single rfl
  simp only [Operator.infer, infer, Operator.demand_told _ hc, Operator.demand_told _ hx,
    Operator.demand_told _ hy, ok_bind] at hw
  obtain ⟨_, -, hw⟩ := bind_eq_ok.mp hw
  obtain ⟨_, -, hw⟩ := bind_eq_ok.mp hw
  obtain ⟨t, ht, hw⟩ := bind_eq_ok.mp hw
  obtain ⟨s, hs, ht⟩ := bind_eq_ok.mp ht
  cases ht
  cases hw
  refine h.canBroadcast ?_ (by simpa using hs) (by simpa using hshape)
  simp [h.fits_input hc, h.fits_input hx, h.fits_input hy]

theorem safe (h : Operator.select.Accepts inputs outputs) :
    Safe (Where.prepare inputs outputs) := by
  refine safe_demand fun c hc => safe_demand fun x hx => safe_demand fun y hy => ?_
  refine safe_single fun out hout => ?_
  subst hout
  have hall := canBroadcast h hc hx hy
  have hfits := h.fits_single
  cases c with
  | float c => exact safe_ok (noFault_ok _)
  | int c =>
    refine safe_ok (noFault_sameType fun x' out' _ hx' hout' => ?_)
    refine noFault_bind (noFault_typed _) fun y' hy' => ?_
    refine noFault_bind ?_ fun _ _ => noFault_bind ?_ fun _ _ => noFault_bind ?_ fun _ _ =>
      noFault_ok _
    · exact Tensor.noFault_broadcast rfl (h.fits_input hc) hfits hout' (hall _ (by simp))
    · exact Tensor.noFault_broadcast hx' (h.fits_input hx) hfits hout' (hall _ (by simp))
    · exact Tensor.noFault_broadcast (shape_of_typed hy') (h.fits_input hy) hfits hout'
        (hall _ (by simp))

end Where

theorem Value.toSizes_toWhole {t : Tensor Int64} {s : SymShape} (hrank : t.shape.length = 1)
    (h : ((Value.int t).toWhole.toSizes : Outcome ε SymShape) = .ok s) :
    s = .ofShape (t.data.map sizeOfInt) := by
  have helements : (Value.int t).toWhole.elements = some (t.data.map .int) := by
    rw [elements_toWhole, if_pos (by simp [rank, shape, hrank, SymTensor.maxRank])]
    rfl
  unfold SymTensor.toSizes at h
  rw [helements] at h
  obtain ⟨_, -, h⟩ := bind_eq_ok.mp h
  cases h
  simp [SymShape.ofShape, SymDim.ofSize, SymElement.toDim, intOfSize_sizeOfInt, Function.comp_def]

namespace Expand

theorem canBroadcast (h : Operator.expand.Accepts inputs [out]) {x : Value}
    (hx : Inputs.find? inputs 0 = some x) : Layout.canBroadcast x.shape out.shape = true := by
  obtain ⟨w, hw, -, hshape⟩ := h.infer_single rfl
  simp only [Operator.infer, infer, Operator.demand_told _ hx, ok_bind] at hw
  obtain ⟨target, htarget, hw⟩ := bind_eq_ok.mp hw
  obtain ⟨_, hvector, hw⟩ := bind_eq_ok.mp hw
  obtain ⟨sizes, hsizes, hw⟩ := bind_eq_ok.mp hw
  obtain ⟨s, hs, hw⟩ := bind_eq_ok.mp hw
  cases hw
  rw [SymInputs.demand_eq_ok, Operator.find?_told] at htarget
  obtain ⟨v, hv, rfl⟩ := Option.map_eq_some_iff.mp htarget
  obtain ⟨hdtype, r, hr⟩ := SymTensor.demandIntVector_eq_ok hvector
  rw [Operator.dtype_told] at hdtype
  rw [Operator.shape_told] at hr
  obtain ⟨hrank, -⟩ := SymShape.declareRank_ofShape hr
  cases v with
  | float t => cases hdtype
  | int t =>
    obtain rfl := Value.toSizes_toWhole hrank hsizes
    have hx' := h.fits_input hx
    have hshapes : ∀ s ∈ [x.shape, t.data.map sizeOfInt], ∀ n ∈ s, n < sizeLimit := by
      intro s hs n hn
      rcases List.mem_pair.mp hs with rfl | rfl
      · exact hx'.lt_sizeLimit hn
      · obtain ⟨m, -, rfl⟩ := List.mem_map.mp hn
        exact sizeOfInt_lt m
    obtain ⟨c, rfl, hc, hall⟩ := SymShape.canBroadcast_of_broadcast hshapes (by simpa using hs)
    obtain rfl := h.shape_of_sizes hc rfl (by simpa using hshape)
    exact hall x.shape List.mem_cons_self

theorem safe (h : Operator.expand.Accepts inputs outputs) :
    Safe (Expand.prepare inputs outputs) := by
  refine safe_demand fun x hx => safe_single fun out hout => safe_ok ?_
  subst hout
  refine noFault_sameType fun x' out' _ hx' hout' => noFault_bind ?_ fun _ _ => noFault_ok _
  exact Tensor.noFault_broadcast hx' (h.fits_input hx) (h.fits_single)
    hout' (canBroadcast h hx)

end Expand

end TensorGraph
